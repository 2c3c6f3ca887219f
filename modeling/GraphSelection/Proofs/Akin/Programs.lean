import GraphSelection.Proofs.Akin.Plans
import GraphSelection.Proofs.Akin.Predicates
import GraphSelection.Proofs.Alike.Programs

/-!
Kindred plans are written alike. The inductions are over the fields and the changes of the first
plan; the second has the same shape, so its parts draw the same names in the same order. What is
assigned becomes a parameter without being looked at.
-/
namespace GraphSelection.Program

open GraphSelection Cypher Plan

section Scopes

variable (ctx : Context)

theorem alike_akin_filteredMatch (pattern : Pattern) {filter filter' : Option Condition}
    (h : FilterAkin filter filter') :
    Alike (filteredMatch pattern filter ctx) (filteredMatch pattern filter' ctx) := by
  obtain ⟨R, hfaithful, hfilter⟩ := h
  exact .bind (akin_optionPredicate hfaithful ctx filter filter' hfilter).gathered fun _ => .pure _

/-- Validations come from rules, and are the same in both plans. -/
theorem alike_same_validated (validations : List Condition) :
    Alike (validated ctx validations) (validated ctx validations) := by
  refine .bind ?_ fun _ => .pure _
  induction validations with
  | nil => exact .pure _
  | cons c rest ih =>
    have hc := akin_predicate faithful_eq ctx c c (Condition.akin_refl Eq c fun _ _ => rfl)
    exact .bind hc.gathered fun _ => .bind ih fun _ => .pure _

variable {scope scope' : Scope}

theorem alike_akin_scopeMatch (h : scope.Akin scope') :
    Alike (scopeMatch ctx scope) (scopeMatch ctx scope') := by
  cases h with
  | intro entity relationship validations hfilter =>
    refine .bind (.fault (scopePattern ctx _)) fun pattern => ?_
    refine .bind (alike_akin_filteredMatch ctx pattern hfilter) fun found => ?_
    exact .bind (alike_same_validated ctx validations) fun _ => .pure _

theorem alike_akin_distinctNodes (h : scope.Akin scope') :
    Alike (distinctNodes ctx scope) (distinctNodes ctx scope') := by
  have hmatch := alike_akin_scopeMatch ctx h
  cases h with
  | intro entity relationship validations hfilter =>
    refine .bind hmatch fun clauses => ?_
    cases relationship <;> exact .pure _

theorem alike_akin_measureCall (h : scope.Akin scope') (m : Measure) (result : String) :
    Alike (measureCall ctx scope m result) (measureCall ctx scope' m result) := by
  have hmatch := alike_akin_scopeMatch ctx h
  cases h with
  | intro entity relationship validations hfilter =>
    refine .bind (.fault _) fun imports => .bind hmatch fun found => ?_
    exact .bind (.fault (measured m ctx.subject ctx.relationship)) fun _ => .pure _

theorem alike_akin_aggregateClauses {a a' : Aggregate} (h : a.Akin a') :
    Alike (aggregateClauses ctx a) (aggregateClauses ctx a') := by
  cases h with
  | intro items hscope =>
    exact .bind (alike_aggregateEntries (alike_akin_measureCall ctx hscope) items) fun _ => .pure _

end Scopes

section Fields

-- Parts without values are built alike for one principal, whoever it is.

theorem alike_same_branchContext (ctx : Context) (isFirst : Bool) :
    Alike (branchContext ctx isFirst) (branchContext ctx isFirst) := by
  cases isFirst with
  | true => exact .pure ctx
  | false =>
    refine .bind (.fresh "this") fun subject => ?_
    split
    · exact .pure _
    · exact .bind (.fresh "this") fun _ => .pure _

theorem alike_same_orderedWindow (ctx : Context) (sort : List SortKey) (bounds : Bounds) :
    Alike (orderedWindow ctx sort bounds) (orderedWindow ctx sort bounds) :=
  alike_orderedWindow (b := ctx.terms.authenticated) ctx sort bounds

theorem alike_same_arranged (ctx : Context) (sort : List SortKey) (page : Page) :
    Alike (arranged ctx sort page) (arranged ctx sort page) :=
  alike_arranged (b := ctx.terms.authenticated) ctx sort page

theorem alike_same_branchKeys (ctx : Context) (sort : List SortKey) (columns : List String) :
    Alike (branchKeys ctx sort columns) (branchKeys ctx sort columns) :=
  alike_branchKeys (b := ctx.terms.authenticated) ctx sort columns

theorem alike_same_importParent (ctx : Context) : Alike (importParent ctx) (importParent ctx) :=
  alike_importParent (b := ctx.terms.authenticated) ctx

theorem alike_same_edgeMeasureCall (ctx : Context) (edges : String) (m : Measure)
    (result : String) :
    Alike (edgeMeasureCall ctx edges m result) (edgeMeasureCall ctx edges m result) :=
  alike_edgeMeasureCall (b := ctx.terms.authenticated) ctx edges m result

theorem alike_same_nestedCall (ctx : Context) {body body' : Context → Build (List Clause)}
    (hbody : ∀ inner, Alike (body inner) (body' inner)) :
    Alike (nestedCall ctx body) (nestedCall ctx body') :=
  .named fun edge node result => .bind (hbody (ctx.enter node (some edge) result)) fun _ => .pure _

variable {R : Field → Field → Prop} {items items' : List (ConnectionItem Field)}

theorem any_needsPage_akin (h : List.Forall₂ (ConnectionItem.Akin R) items items') :
    items.any ConnectionItem.needsPage = items'.any ConnectionItem.needsPage := by
  induction h with
  | nil => rfl
  | cons hitem _ ih =>
    rw [List.any_cons, List.any_cons, ih]
    cases hitem <;> rfl

theorem alike_akin_edgeList (h : List.Forall₂ (ConnectionItem.Akin R) items items') (edge : Expr)
    (page : Page) : Alike (edgeList edge items page) (edgeList edge items' page) := by
  simp only [edgeList, any_needsPage_akin h]
  refine .bind (.fresh "edges") fun edges => .bind (.fresh "totalCount") fun total => ?_
  split
  · exact .bind (alike_bounds page) fun _ => .pure _
  · exact .bind (.pure _) fun _ => .pure _

theorem alike_akin_mergedEntries (h : List.Forall₂ (ConnectionItem.Akin R) items items')
    (l : EdgeList) (composite : String) (sort : List SortKey) (columns : List String) :
    Alike (mergedEntries l composite sort columns items)
      (mergedEntries l composite sort columns items') := by
  induction h with
  | nil => exact .pure _
  | cons hitem _ ih =>
    cases hitem with
    | edges key properties typename hnode =>
      cases hnode with
      | none =>
        exact .bind (alike_mergedEdgesCall l sort columns _ _ _) fun _ => .bind ih fun _ => .pure _
      | some nodeKey hfields =>
        exact .bind (alike_mergedEdgesCall l sort columns _ _ _) fun _ => .bind ih fun _ => .pure _
    | aggregate key items => exact .bind (.fail _) fun _ => .bind ih fun _ => .pure _
    | totalCount key => exact .bind (.pure _) fun _ => .bind ih fun _ => .pure _
    | pageInfo key fields => exact .bind (.pure _) fun _ => .bind ih fun _ => .pure _
    | typename key typeName => exact .bind (.pure _) fun _ => .bind ih fun _ => .pure _

mutual
theorem alike_akin_item (ctx : Context) (f f' : Field) (h : f.Akin f') :
    Alike (Field.item ctx f) (Field.item ctx f') := by
  match f with
  | .stored key a =>
    cases h with
    | stored => exact .pure _
  | .typename key typeName =>
    cases h with
    | typename => exact .pure _
  | .computed key a =>
    cases h with
    | computed =>
      exact .bind (.fresh "var") fun _ => .bind (alike_same_computedCall ctx a _) fun _ => .pure _
  | .lookup key l =>
    cases h with
    | lookup _ hl =>
      refine .bind (alike_same_nestedCall ctx fun inner => ?_) fun _ => .pure _
      exact alike_akin_lookupClauses inner l _ hl
  | .aggregate key a =>
    cases h with
    | aggregate _ ha =>
      refine .bind (alike_same_nestedCall ctx fun inner => ?_) fun _ => .pure _
      exact alike_akin_aggregateClauses inner ha
termination_by structural f
theorem alike_akin_items (ctx : Context) (fields fields' : List Field)
    (h : List.Forall₂ Field.Akin fields fields') :
    Alike (Field.items ctx fields) (Field.items ctx fields') := by
  match fields with
  | [] =>
    cases h
    exact .pure _
  | f :: rest =>
    cases h with
    | cons hf hrest =>
      refine .bind (alike_akin_item ctx f _ hf) fun _ => ?_
      exact .bind (alike_akin_items ctx rest _ hrest) fun _ => .pure _
termination_by structural fields
theorem alike_akin_lookupClauses (ctx : Context) (l l' : Lookup Field)
    (h : Lookup.Akin Field.Akin l l') :
    Alike (Field.lookupClauses ctx l) (Field.lookupClauses ctx l') := by
  match l with
  | .read ⟨scope, fields, sort, page⟩ =>
    cases h with
    | read hread =>
      cases hread with
      | intro _ _ hscope hfields =>
        refine .bind (alike_akin_distinctNodes ctx hscope) fun found => ?_
        refine .bind (alike_same_arranged ctx sort page) fun window => ?_
        refine .bind (alike_akin_items ctx fields _ hfields) fun _ => ?_
        cases hscope
        exact .pure _
  | .connection ⟨scope, sort, page, items⟩ =>
    cases h with
    | connection hconnection =>
      cases hconnection with
      | intro _ _ hscope hitems =>
        refine .bind (alike_akin_scopeMatch ctx hscope) fun found => ?_
        refine .bind (alike_akin_edgeList hitems _ page) fun l => ?_
        exact .bind (alike_akin_entries ctx l.2 sort items _ hitems) fun _ => .pure _
  | .composite ⟨composite, relationship, branches, sort, page⟩ =>
    cases h with
    | composite hcomposite =>
      cases hcomposite with
      | intro _ _ _ _ hbranches =>
        refine .bind (.fresh "var") fun column => .bind (alike_sortColumns sort) fun columns => ?_
        refine .bind (alike_akin_branches ctx column columns true branches _ hbranches)
          fun bodies => .bind (.fault _) fun union => ?_
        exact .bind (alike_mergedWindow column sort columns page) fun _ => .pure _
  | .compositeConnection ⟨composite, relationship, branches, sort, page, items⟩ =>
    cases h with
    | compositeConnection hcomposite =>
      cases hcomposite with
      | intro _ _ _ _ hbranches hitems =>
        refine .bind (.fresh "var") fun column => .bind (alike_sortColumns sort) fun columns => ?_
        refine .bind (alike_akin_connectionBranches ctx column columns true branches _ hbranches)
          fun bodies => .bind (.fault _) fun union => ?_
        refine .bind (alike_akin_edgeList hitems _ page) fun l => ?_
        exact .bind (alike_akin_mergedEntries hitems l.2 composite.name sort columns)
          fun _ => .pure _
termination_by structural l
theorem alike_akin_entries (ctx : Context) (l : EdgeList) (sort : List SortKey)
    (items items' : List (ConnectionItem Field))
    (h : List.Forall₂ (ConnectionItem.Akin Field.Akin) items items') :
    Alike (Field.entries ctx l sort items) (Field.entries ctx l sort items') := by
  match items with
  | [] =>
    cases h
    exact .pure _
  | .edges key node properties typename :: rest =>
    cases h with
    | cons hitem hrest =>
      cases hitem with
      | edges _ _ _ hnode =>
        refine .bind (.fresh "var") fun result => .bind (.fresh "edge") fun edge => ?_
        refine .bind (alike_same_orderedWindow ctx sort l.bounds) fun window => ?_
        refine .bind (alike_akin_nodeEntry ctx node _ hnode) fun shown => ?_
        refine .bind (.fault _) fun properties => ?_
        exact .bind (alike_akin_entries ctx l sort rest _ hrest) fun _ => .pure _
  | .aggregate key items :: rest =>
    cases h with
    | cons hitem hrest =>
      cases hitem with
      | aggregate =>
        refine .bind (alike_aggregateEntries (alike_same_edgeMeasureCall ctx l.edges) items)
          fun group => ?_
        exact .bind (alike_akin_entries ctx l sort rest _ hrest) fun _ => .pure _
  | .totalCount key :: rest =>
    cases h with
    | cons hitem hrest =>
      cases hitem with
      | totalCount => exact .bind (alike_akin_entries ctx l sort rest _ hrest) fun _ => .pure _
  | .pageInfo key fields :: rest =>
    cases h with
    | cons hitem hrest =>
      cases hitem with
      | pageInfo => exact .bind (alike_akin_entries ctx l sort rest _ hrest) fun _ => .pure _
  | .typename key typeName :: rest =>
    cases h with
    | cons hitem hrest =>
      cases hitem with
      | typename => exact .bind (alike_akin_entries ctx l sort rest _ hrest) fun _ => .pure _
termination_by structural items
theorem alike_akin_nodeEntry (ctx : Context) (node node' : Option (String × List Field))
    (h : NodeAkin Field.Akin node node') :
    Alike (Field.nodeEntry ctx node) (Field.nodeEntry ctx node') := by
  match node with
  | none =>
    cases h
    exact .pure _
  | some (key, fields) =>
    cases h with
    | some _ hfields => exact .bind (alike_akin_items ctx fields _ hfields) fun _ => .pure _
termination_by structural node
theorem alike_akin_branches (ctx : Context) (column : String) (columns : List String)
    (isFirst : Bool) (branches branches' : List (Read Field))
    (h : List.Forall₂ (Read.Akin Field.Akin) branches branches') :
    Alike (Field.branches ctx column columns isFirst branches)
      (Field.branches ctx column columns isFirst branches') := by
  match branches with
  | [] =>
    cases h
    exact .pure []
  | ⟨scope, fields, sort, page⟩ :: rest =>
    cases h with
    | cons hread hrest =>
      cases hread with
      | intro _ _ hscope hfields =>
        refine .bind (alike_same_branchContext ctx isFirst) fun own => ?_
        refine .bind (alike_same_importParent own) fun start => ?_
        refine .bind (alike_akin_distinctNodes own hscope) fun found => ?_
        refine .bind (alike_akin_items own fields _ hfields) fun items => ?_
        refine .bind (alike_same_branchKeys own sort columns) fun keys => ?_
        exact .bind (alike_akin_branches ctx column columns false rest _ hrest) fun _ => .pure _
termination_by structural branches
theorem alike_akin_connectionBranches (ctx : Context) (column : String) (columns : List String)
    (isFirst : Bool) (branches branches' : List (ConnectionBranch Field))
    (h : List.Forall₂ (ConnectionBranch.Akin Field.Akin) branches branches') :
    Alike (Field.connectionBranches ctx column columns isFirst branches)
      (Field.connectionBranches ctx column columns isFirst branches') := by
  match branches with
  | [] =>
    cases h
    exact .pure []
  | ⟨⟨scope, fields, sort, page⟩, edgeFields⟩ :: rest =>
    cases h with
    | cons hbranch hrest =>
      cases hbranch with
      | intro _ hread =>
        cases hread with
        | intro _ _ hscope hfields =>
          refine .bind (alike_same_branchContext ctx isFirst) fun own => ?_
          refine .bind (alike_same_importParent own) fun start => ?_
          refine .bind (alike_akin_scopeMatch own hscope) fun found => ?_
          refine .bind (alike_akin_items own fields _ hfields) fun items => ?_
          refine .bind (.fault _) fun properties => ?_
          refine .bind (alike_same_branchKeys own sort columns) fun keys => ?_
          exact .bind (alike_akin_connectionBranches ctx column columns false rest _ hrest)
            fun _ => .pure _
termination_by structural branches
end

end Fields

theorem alike_akin_assigned (name : String) {assignments assignments' : List Assignment}
    (h : AssignmentsAkin assignments assignments') :
    Alike (assigned name assignments) (assigned name assignments') := by
  refine .bind ?_ fun _ => .pure _
  induction h with
  | nil => exact .pure []
  | @cons a a' _ _ htarget _ ih =>
    obtain ⟨target, value⟩ := a
    obtain ⟨target', value'⟩ := a'
    obtain rfl : target = target' := htarget
    have hvalue : Alike (typedParam value (if target.isList then none else some target.kind))
        (typedParam value' (if target.isList then none else some target.kind)) :=
      .bind (.param value value') fun _ => .pure _
    exact .bind (.bind hvalue fun _ => .pure _) fun _ => .bind ih fun _ => .pure _

theorem alike_akin_linkedNodes (ctx child : Context) (link : Link)
    {filter filter' : Option Condition} (h : FilterAkin filter filter') :
    Alike (linkedNodes ctx child link filter) (linkedNodes ctx child link filter') :=
  .bind (.fault child.edge) fun _ => alike_akin_filteredMatch child _ h

mutual
theorem alike_akin_clause (ctx : Context) (m m' : Mutation) (h : m.Akin m') :
    Alike (Mutation.clause ctx m) (Mutation.clause ctx m') := by
  match m with
  | .create link ⟨assignments, nested, validations⟩ edgeAssignments =>
    cases h with
    | create _ hnode hedge =>
      cases hnode with
      | intro _ hassignments hnested =>
        refine .named fun edge node result => ?_
        let child := ctx.enter node (some edge) result
        refine .bind (alike_akin_assigned node hassignments) fun own => ?_
        refine .bind (alike_akin_assigned edge hedge) fun onEdge => ?_
        refine .bind (alike_akin_after child _ nested _ hnested) fun written => ?_
        exact .bind (alike_same_validated child validations) fun _ => .pure _
  | .connect link filter edgeAssignments validations =>
    cases h with
    | connect _ _ hfilter hedge =>
      refine .named fun edge node result => ?_
      let child := ctx.enter node (some edge) result
      refine .bind (alike_akin_filteredMatch child _ hfilter) fun found => ?_
      refine .bind (alike_akin_assigned edge hedge) fun onEdge => ?_
      exact .bind (alike_same_validated child validations) fun _ => .pure _
  | .disconnect link filter validations =>
    cases h with
    | disconnect _ _ hfilter =>
      refine .named fun edge node result => ?_
      let child := ctx.enter node (some edge) result
      refine .bind (alike_akin_linkedNodes ctx child link hfilter) fun found => ?_
      exact .bind (alike_same_validated child validations) fun _ => .pure _
  | .update link filter before nodeAssignments edgeAssignments after =>
    cases h with
    | update _ _ _ hfilter hnode hedge =>
      refine .named fun edge node result => ?_
      let child := ctx.enter node (some edge) result
      refine .bind (alike_akin_linkedNodes ctx child link hfilter) fun found => ?_
      refine .bind (alike_same_validated child before) fun first => ?_
      refine .bind (alike_akin_assigned node hnode) fun own => ?_
      refine .bind (alike_akin_assigned edge hedge) fun onEdge => ?_
      exact .bind (alike_same_validated child after) fun _ => .pure _
  | .delete link filter before nested =>
    cases h with
    | delete _ _ hfilter hnested =>
      refine .named fun edge node result => ?_
      let child := ctx.enter node (some edge) result
      refine .bind (alike_akin_linkedNodes ctx child link hfilter) fun found => ?_
      refine .bind (alike_same_validated child before) fun first => ?_
      exact .bind (alike_akin_after child _ nested _ hnested) fun _ => .pure _
termination_by structural m
theorem alike_akin_after (ctx : Context) (before : List Clause) (nested nested' : List Mutation)
    (h : List.Forall₂ Mutation.Akin nested nested') :
    Alike (Mutation.after ctx before nested) (Mutation.after ctx before nested') := by
  match nested with
  | [] =>
    cases h
    exact .pure before
  | m :: rest =>
    cases h with
    | cons hm hrest =>
      exact .bind (alike_akin_clause ctx m _ hm) fun clause => alike_akin_after ctx _ rest _ hrest
termination_by structural nested
end

theorem alike_akin_newNode (ctx : Context) (e : Entity) {n n' : NewNode Mutation}
    (h : NewNode.Akin Mutation.Akin n n') : Alike (newNode ctx e n) (newNode ctx e n') := by
  cases h with
  | intro validations hassignments hnested =>
    refine .bind (alike_akin_assigned ctx.subject hassignments) fun own => ?_
    refine .bind (alike_akin_after ctx _ _ _ hnested) fun written => ?_
    exact .bind (alike_same_validated ctx validations) fun _ => .pure _

theorem alike_akin_newNodes (ctx : Context) (e : Entity) (isFirst : Bool)
    {nodes nodes' : List (NewNode Mutation)}
    (h : List.Forall₂ (NewNode.Akin Mutation.Akin) nodes nodes') :
    Alike (newNodes ctx e isFirst nodes) (newNodes ctx e isFirst nodes') := by
  induction h generalizing isFirst with
  | nil => exact .pure _
  | cons hn _ ih =>
    refine .bind (alike_same_branchContext ctx isFirst) fun own => ?_
    refine .bind (alike_akin_newNode own e hn) fun body => ?_
    exact .bind (ih false) fun _ => .pure _

theorem alike_akin_projections {fields fields' : List Field}
    (h : List.Forall₂ Field.Akin fields fields') (contexts : List Context) :
    Alike (projections fields contexts) (projections fields' contexts) := by
  induction contexts with
  | nil => exact .pure _
  | cons ctx rest ih => exact .bind (alike_akin_items ctx _ _ h) fun _ => .bind ih fun _ => .pure _

/-- Kindred operations have the same clauses, made with the same names. -/
theorem alike_akin_operationClauses (ctx : Context) {o o' : Operation} (h : o.Akin o') :
    Alike (operationClauses ctx o) (operationClauses ctx o') := by
  cases h with
  | lookup hl => exact alike_akin_lookupClauses ctx _ _ hl
  | aggregate ha => exact alike_akin_aggregateClauses ctx ha
  | create hc =>
    cases hc with
    | intro entity hnodes hfields =>
      refine .bind (alike_akin_newNodes ctx entity true hnodes) fun made => ?_
      exact .bind (alike_akin_projections hfields made.2) fun _ => .pure _
  | update hu =>
    cases hu with
    | intro entity before after hfilter hassignments hnested hfields =>
      refine .bind (alike_akin_filteredMatch ctx _ hfilter) fun found => ?_
      refine .bind (alike_same_validated ctx before) fun first => ?_
      refine .bind (alike_akin_assigned ctx.subject hassignments) fun own => ?_
      refine .bind (alike_akin_after ctx _ _ _ hnested) fun written => ?_
      refine .bind (alike_same_validated ctx after) fun last => ?_
      exact .bind (alike_akin_items ctx _ _ hfields) fun _ => .pure _
  | delete hd =>
    cases hd with
    | intro entity before hfilter hnested =>
      refine .bind (alike_akin_filteredMatch ctx _ hfilter) fun found => ?_
      refine .bind (alike_same_validated ctx before) fun first => ?_
      exact .bind (alike_akin_after ctx _ _ _ hnested) fun _ => .pure _

end GraphSelection.Program
