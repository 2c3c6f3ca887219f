import GraphSelection.Proofs.Alike.Basic
import GraphSelection.Proofs.AskedBy.Changes
import GraphSelection.Proofs.AskedBy.Fields

/-!
Programs of two principals are written alike: a claim is one parameter, whatever its value and
whether it is there at all, and being signed in is one parameter too. The inductions are over the
conditions, fields and changes of a plan; branches of composites that draw names of their own draw
the same ones.
-/
namespace GraphSelection.Program

open GraphSelection Cypher Plan

variable {p : Principal} {b : Bool}

section Predicates

theorem alike_claimParam (value value' : Option Doc) :
    Alike (claimParam value) (claimParam value') :=
  .bind (.param _ _) fun _ => .pure _

theorem alike_subjectExpr (ctx : Context) (subject : Subject) :
    AlikeIn (subjectExpr (ctx.signedIn b) (subject.askedBy p)) (subjectExpr ctx subject) := by
  cases subject with
  | node a => exact .pure _
  | edge a => exact .bind (.fault ctx.edge) fun _ => .pure _
  | computed a => exact .bind (.shared _ (alike_computedCall ctx a)) fun _ => .pure _
  | claim path value => exact .lift (alike_claimParam _ _)

theorem alike_operandExpr (kind : Option ScalarKind) (op : Comparison) (operand : Operand) :
    Alike (operandExpr kind op (operand.askedBy p)) (operandExpr kind op operand) := by
  cases operand with
  | literal value =>
    simp only [Operand.askedBy, operandExpr]
    split
    · exact .bind (alike_typedListParam value kind) fun _ => .pure _
    · exact .bind (alike_typedParam value kind) fun _ => .pure _
  | claim path value => exact alike_claimParam _ _

theorem kind?_askedBy (subject : Subject) : (subject.askedBy p).kind? = subject.kind? := by
  cases subject <;> rfl

theorem alike_comparePredicate (ctx : Context) (subject : Subject) (op : Comparison)
    (operand : Operand) (caseInsensitive : Bool) :
    AlikeIn (comparePredicate (ctx.signedIn b) (subject.askedBy p) op (operand.askedBy p)
        caseInsensitive)
      (comparePredicate ctx subject op operand caseInsensitive) := by
  refine .bind (alike_subjectExpr ctx subject) fun left => ?_
  rw [kind?_askedBy]
  exact .bind (.lift (alike_operandExpr _ op operand)) fun _ => .pure _

theorem targetLabels_askedBy (isComposite : Bool) (targets : List (Entity × Option Condition)) :
    targetLabels isComposite (Condition.targetsAskedBy p targets) =
      targetLabels isComposite targets := by
  cases isComposite <;> cases targets <;> rfl

mutual
theorem alike_predicate (ctx : Context) (c : Condition) :
    AlikeIn (Condition.predicate (ctx.signedIn b) (c.askedBy p)) (Condition.predicate ctx c) := by
  match c with
  | .all items => exact .bind (alike_predicates ctx items) fun _ => .pure _
  | .any items => exact .bind (alike_predicates ctx items) fun _ => .pure _
  | .not inner => exact .bind (alike_predicate ctx inner) fun _ => .pure _
  | .compare subject op operand caseInsensitive =>
    exact alike_comparePredicate ctx subject op operand caseInsensitive
  | .nullness subject isNull => exact .bind (alike_subjectExpr ctx subject) fun _ => .pure _
  | .labels labels => exact .pure _
  | .related relationship quantifier targets isComposite edge =>
    refine .bind (.lift (.fresh "this")) fun edgeName => ?_
    refine .bind (.lift (.fresh "this")) fun node => ?_
    let inner := ctx.enter node (some edgeName) ctx.result
    have hedge : AlikeIn (Condition.optionPredicate (inner.signedIn b)
        (Condition.optionAskedBy p edge)) (Condition.optionPredicate inner edge) :=
      alike_optionPredicate inner edge
    refine .bind (.lift (AlikeIn.gathered ?_)) fun parts => ?_
    · cases isComposite with
      | true =>
        refine .bind (alike_alternatives inner targets) fun _ => .bind (.pure _) fun _ => ?_
        exact .bind hedge fun _ => .pure _
      | false =>
        exact .bind (alike_firstTarget inner targets) fun _ => .bind hedge fun _ => .pure _
    · rw [targetLabels_askedBy]
      exact .pure _
  | .aggregation a =>
    exact .bind (.shared _ (alike_aggregationCall ctx a)) fun _ => .pure _
  | .authenticated => exact .bind (.lift (.param _ _)) fun _ => .pure _
theorem alike_predicates (ctx : Context) (cs : List Condition) :
    AlikeIn (Condition.predicates (ctx.signedIn b) (Condition.eachAskedBy p cs))
      (Condition.predicates ctx cs) := by
  match cs with
  | [] => exact .pure []
  | c :: rest =>
    exact .bind (alike_predicate ctx c) fun _ => .bind (alike_predicates ctx rest) fun _ => .pure _
theorem alike_alternatives (ctx : Context) (targets : List (Entity × Option Condition)) :
    AlikeIn (Condition.alternatives (ctx.signedIn b) (Condition.targetsAskedBy p targets))
      (Condition.alternatives ctx targets) := by
  match targets with
  | [] => exact .pure []
  | (e, filter) :: rest =>
    refine .bind (alike_optionPredicate ctx filter) fun _ => ?_
    exact .bind (alike_alternatives ctx rest) fun _ => .pure _
theorem alike_firstTarget (ctx : Context) (targets : List (Entity × Option Condition)) :
    AlikeIn (Condition.firstTarget (ctx.signedIn b) (Condition.targetsAskedBy p targets))
      (Condition.firstTarget ctx targets) := by
  match targets with
  | [] => exact .pure []
  | (e, filter) :: rest => exact alike_optionPredicate ctx filter
theorem alike_optionPredicate (ctx : Context) (c : Option Condition) :
    AlikeIn (Condition.optionPredicate (ctx.signedIn b) (Condition.optionAskedBy p c))
      (Condition.optionPredicate ctx c) := by
  match c with
  | none => exact .pure []
  | some c => exact .bind (alike_predicate ctx c) fun _ => .pure _
end

end Predicates

section Scopes

variable (ctx : Context)

theorem alike_filteredMatch (pattern : Pattern) (filter : Option Condition) :
    Alike (filteredMatch pattern (filter.map (Condition.askedBy p)) (ctx.signedIn b))
      (filteredMatch pattern filter ctx) := by
  rw [← Condition.optionAskedBy_eq]
  exact .bind (alike_optionPredicate ctx filter).gathered fun _ => .pure _

theorem alike_validationParts (validations : List Condition) :
    Alike (validationParts (ctx.signedIn b) (validations.map (Condition.askedBy p)))
      (validationParts ctx validations) := by
  induction validations with
  | nil => exact .pure _
  | cons c rest ih =>
    exact .bind (alike_predicate ctx c).gathered fun _ => .bind ih fun _ => .pure _

theorem alike_validated (validations : List Condition) :
    Alike (validated (ctx.signedIn b) (validations.map (Condition.askedBy p)))
      (validated ctx validations) :=
  .bind (alike_validationParts ctx validations) fun _ => .pure _

theorem alike_scopeMatch (scope : Scope) :
    Alike (scopeMatch (ctx.signedIn b) (scope.askedBy p)) (scopeMatch ctx scope) := by
  refine .bind (.fault (scopePattern ctx scope)) fun pattern => ?_
  refine .bind (alike_filteredMatch ctx pattern scope.filter) fun found => ?_
  exact .bind (alike_validated ctx scope.validations) fun _ => .pure _

theorem alike_distinctNodes (scope : Scope) :
    Alike (distinctNodes (ctx.signedIn b) (scope.askedBy p)) (distinctNodes ctx scope) := by
  refine .bind (alike_scopeMatch ctx scope) fun clauses => ?_
  obtain ⟨entity, relationship, filter, validations⟩ := scope
  cases relationship <;> exact .pure _

theorem alike_measureCall (scope : Scope) (m : Measure) (result : String) :
    Alike (measureCall (ctx.signedIn b) (scope.askedBy p) m result)
      (measureCall ctx scope m result) := by
  refine .bind (.fault _) fun imports => .bind (alike_scopeMatch ctx scope) fun found => ?_
  exact .bind (.fault (measured m ctx.subject ctx.relationship)) fun _ => .pure _

end Scopes

section Aggregates

variable {call call' : Measure → String → Build Clause}

mutual
theorem alike_aggregateEntry (hcall : ∀ m result, Alike (call m result) (call' m result))
    (item : AggregateItem) : Alike (aggregateEntry call item) (aggregateEntry call' item) := by
  match item with
  | .measure key m => exact .bind (.fresh "var") fun _ => .bind (hcall m _) fun _ => .pure _
  | .group key items => exact .bind (alike_aggregateEntries hcall items) fun _ => .pure _
  | .typename key typeName => exact .pure _
theorem alike_aggregateEntries (hcall : ∀ m result, Alike (call m result) (call' m result))
    (items : List AggregateItem) :
    Alike (aggregateEntries call items) (aggregateEntries call' items) := by
  match items with
  | [] => exact .pure _
  | item :: rest =>
    refine .bind (alike_aggregateEntry hcall item) fun _ => ?_
    exact .bind (alike_aggregateEntries hcall rest) fun _ => .pure _
end

theorem alike_aggregateClauses (ctx : Context) (a : Aggregate) :
    Alike (aggregateClauses (ctx.signedIn b) (a.askedBy p)) (aggregateClauses ctx a) :=
  .bind (alike_aggregateEntries (alike_measureCall ctx a.scope) a.items) fun _ => .pure _

end Aggregates

theorem alike_freshSibling (ctx : Context) :
    Alike (ctx.signedIn b).freshSibling ((Context.signedIn · b) <$> ctx.freshSibling) := by
  obtain ⟨terms, subject, relationship, parents, result⟩ := ctx
  cases relationship with
  | none =>
    simp only [Context.freshSibling, map_bind, map_pure]
    exact .bind (.fresh "this") fun _ => .pure _
  | some r =>
    simp only [Context.freshSibling, map_bind, map_pure]
    exact .bind (.fresh "this") fun _ => .bind (.fresh "this") fun _ => .pure _

theorem alike_branchContext (ctx : Context) (isFirst : Bool) :
    Alike (branchContext (ctx.signedIn b) isFirst)
      ((Context.signedIn · b) <$> branchContext ctx isFirst) := by
  cases isFirst with
  | true => exact .pure (ctx.signedIn b)
  | false => exact alike_freshSibling ctx

theorem alike_nestedCall (ctx : Context) {body' body : Context → Build (List Clause)}
    (hbody : ∀ inner : Context, Alike (body' (inner.signedIn b)) (body inner)) :
    Alike (nestedCall (ctx.signedIn b) body') (nestedCall ctx body) :=
  .named fun edge node result => .bind (hbody (ctx.enter node (some edge) result)) fun _ => .pure _

theorem alike_edgeList (edge : Expr) (items : List (ConnectionItem Field)) (page : Page) :
    Alike (edgeList edge (Field.itemsAskedBy p items) page) (edgeList edge items page) := by
  simp only [edgeList, Field.itemsAskedBy_eq, ConnectionItem.needsPage_askedBy]
  refine .bind (.fresh "edges") fun edges => .bind (.fresh "totalCount") fun total => ?_
  split
  · exact .bind (alike_bounds page) fun _ => .pure _
  · exact .bind (.pure _) fun _ => .pure _

theorem alike_mergedEntries (l : EdgeList) (composite : String) (sort : List SortKey)
    (columns : List String) (items : List (ConnectionItem Field)) :
    Alike (mergedEntries l composite sort columns (Field.itemsAskedBy p items))
      (mergedEntries l composite sort columns items) := by
  induction items with
  | nil => exact .pure _
  | cons item rest ih =>
    cases item with
    | edges key node properties typename =>
      have hnode : (Field.nodeAskedBy p node).map Prod.fst = node.map Prod.fst := by
        cases node <;> rfl
      simp only [Field.itemsAskedBy, mergedEntries, hnode]
      exact .bind (alike_mergedEdgesCall l sort columns _ _ _) fun _ => .bind ih fun _ => .pure _
    | aggregate key items => exact .bind (.fail _) fun _ => .bind ih fun _ => .pure _
    | totalCount key => exact .bind (.pure _) fun _ => .bind ih fun _ => .pure _
    | pageInfo key fields => exact .bind (.pure _) fun _ => .bind ih fun _ => .pure _
    | typename key typeName => exact .bind (.pure _) fun _ => .bind ih fun _ => .pure _

mutual
theorem alike_item (ctx : Context) (f : Field) :
    Alike (Field.item (ctx.signedIn b) (f.askedBy p)) (Field.item ctx f) := by
  match f with
  | .stored key a => exact .pure _
  | .typename key typeName => exact .pure _
  | .computed key a =>
    exact .bind (.fresh "var") fun _ => .bind (alike_computedCall ctx a _) fun _ => .pure _
  | .lookup key l =>
    exact .bind (alike_nestedCall ctx fun inner => alike_lookupClauses inner l) fun _ => .pure _
  | .aggregate key a =>
    exact .bind (alike_nestedCall ctx fun inner => alike_aggregateClauses inner a) fun _ => .pure _
theorem alike_items (ctx : Context) (fields : List Field) :
    Alike (Field.items (ctx.signedIn b) (Field.eachAskedBy p fields)) (Field.items ctx fields) := by
  match fields with
  | [] => exact .pure _
  | f :: rest =>
    exact .bind (alike_item ctx f) fun _ => .bind (alike_items ctx rest) fun _ => .pure _
theorem alike_lookupClauses (ctx : Context) (l : Lookup Field) :
    Alike (Field.lookupClauses (ctx.signedIn b) (Field.lookupAskedBy p l))
      (Field.lookupClauses ctx l) := by
  match l with
  | .read ⟨scope, fields, sort, page⟩ =>
    refine .bind (alike_distinctNodes ctx scope) fun found => ?_
    refine .bind (alike_arranged ctx sort page) fun window => ?_
    exact .bind (alike_items ctx fields) fun _ => .pure _
  | .connection ⟨scope, sort, page, items⟩ =>
    refine .bind (alike_scopeMatch ctx scope) fun found => ?_
    refine .bind (alike_edgeList _ items page) fun l => ?_
    exact .bind (alike_entries ctx l.2 sort items) fun _ => .pure _
  | .composite ⟨composite, relationship, branches, sort, page⟩ =>
    refine .bind (.fresh "var") fun column => .bind (alike_sortColumns sort) fun columns => ?_
    refine .bind (alike_branches ctx column columns true branches) fun bodies => ?_
    refine .bind (.fault _) fun union => ?_
    exact .bind (alike_mergedWindow column sort columns page) fun _ => .pure _
  | .compositeConnection ⟨composite, relationship, branches, sort, page, items⟩ =>
    refine .bind (.fresh "var") fun column => .bind (alike_sortColumns sort) fun columns => ?_
    refine .bind (alike_connectionBranches ctx column columns true branches) fun bodies => ?_
    refine .bind (.fault _) fun union => .bind (alike_edgeList _ items page) fun l => ?_
    exact .bind (alike_mergedEntries l.2 composite.name sort columns items) fun _ => .pure _
theorem alike_entries (ctx : Context) (l : EdgeList) (sort : List SortKey)
    (items : List (ConnectionItem Field)) :
    Alike (Field.entries (ctx.signedIn b) l sort (Field.itemsAskedBy p items))
      (Field.entries ctx l sort items) := by
  match items with
  | [] => exact .pure _
  | .edges key node properties typeName :: rest =>
    refine .bind (.fresh "var") fun result => .bind (.fresh "edge") fun edge => ?_
    refine .bind (alike_orderedWindow ctx sort l.bounds) fun window => ?_
    refine .bind (alike_nodeEntry ctx node) fun shown => .bind (.fault _) fun properties => ?_
    exact .bind (alike_entries ctx l sort rest) fun _ => .pure _
  | .aggregate key items :: rest =>
    refine .bind (alike_aggregateEntries (alike_edgeMeasureCall ctx l.edges) items) fun group => ?_
    exact .bind (alike_entries ctx l sort rest) fun _ => .pure _
  | .totalCount _ :: rest => exact .bind (alike_entries ctx l sort rest) fun _ => .pure _
  | .pageInfo _ _ :: rest => exact .bind (alike_entries ctx l sort rest) fun _ => .pure _
  | .typename _ _ :: rest => exact .bind (alike_entries ctx l sort rest) fun _ => .pure _
theorem alike_nodeEntry (ctx : Context) (node : Option (String × List Field)) :
    Alike (Field.nodeEntry (ctx.signedIn b) (Field.nodeAskedBy p node))
      (Field.nodeEntry ctx node) := by
  match node with
  | none => exact .pure _
  | some (key, fields) => exact .bind (alike_items ctx fields) fun _ => .pure _
theorem alike_branches (ctx : Context) (column : String) (columns : List String) (isFirst : Bool)
    (branches : List (Read Field)) :
    Alike (Field.branches (ctx.signedIn b) column columns isFirst
        (Field.branchesAskedBy p branches))
      (Field.branches ctx column columns isFirst branches) := by
  match branches with
  | [] => exact .pure []
  | ⟨scope, fields, sort, page⟩ :: rest =>
    refine .bind_changed (alike_branchContext ctx isFirst) fun own => ?_
    refine .bind (alike_importParent own) fun start => ?_
    refine .bind (alike_distinctNodes own scope) fun found => ?_
    refine .bind (alike_items own fields) fun items => ?_
    refine .bind (alike_branchKeys own sort columns) fun keys => ?_
    exact .bind (alike_branches ctx column columns false rest) fun _ => .pure _
theorem alike_connectionBranches (ctx : Context) (column : String) (columns : List String)
    (isFirst : Bool) (branches : List (ConnectionBranch Field)) :
    Alike (Field.connectionBranches (ctx.signedIn b) column columns isFirst
        (Field.connectionBranchesAskedBy p branches))
      (Field.connectionBranches ctx column columns isFirst branches) := by
  match branches with
  | [] => exact .pure []
  | ⟨⟨scope, fields, sort, page⟩, edgeFields⟩ :: rest =>
    refine .bind_changed (alike_branchContext ctx isFirst) fun own => ?_
    refine .bind (alike_importParent own) fun start => ?_
    refine .bind (alike_scopeMatch own scope) fun found => ?_
    refine .bind (alike_items own fields) fun items => .bind (.fault _) fun properties => ?_
    refine .bind (alike_branchKeys own sort columns) fun keys => ?_
    exact .bind (alike_connectionBranches ctx column columns false rest) fun _ => .pure _
end

theorem alike_linkedNodes (ctx child : Context) (link : Link) (filter : Option Condition) :
    Alike (linkedNodes (ctx.signedIn b) (child.signedIn b) link
        (filter.map (Condition.askedBy p)))
      (linkedNodes ctx child link filter) :=
  .bind (.fault child.edge) fun _ => alike_filteredMatch child _ filter

mutual
theorem alike_clause (ctx : Context) (m : Mutation) :
    Alike (Mutation.clause (ctx.signedIn b) (m.askedBy p)) (Mutation.clause ctx m) := by
  match m with
  | .create link ⟨assignments, nested, validations⟩ edgeAssignments =>
    refine .named fun edge node result => ?_
    let child := ctx.enter node (some edge) result
    refine .bind (alike_assigned node assignments) fun own => ?_
    refine .bind (alike_assigned edge edgeAssignments) fun onEdge => ?_
    refine .bind (alike_after child _ nested) fun written => ?_
    exact .bind (alike_validated child validations) fun _ => .pure _
  | .connect link filter edgeAssignments validations =>
    refine .named fun edge node result => ?_
    let child := ctx.enter node (some edge) result
    refine .bind (alike_filteredMatch child _ filter) fun found => ?_
    refine .bind (alike_assigned edge edgeAssignments) fun onEdge => ?_
    exact .bind (alike_validated child validations) fun _ => .pure _
  | .disconnect link filter validations =>
    refine .named fun edge node result => ?_
    let child := ctx.enter node (some edge) result
    refine .bind (alike_linkedNodes ctx child link filter) fun found => ?_
    exact .bind (alike_validated child validations) fun _ => .pure _
  | .update link filter before nodeAssignments edgeAssignments after =>
    refine .named fun edge node result => ?_
    let child := ctx.enter node (some edge) result
    refine .bind (alike_linkedNodes ctx child link filter) fun found => ?_
    refine .bind (alike_validated child before) fun first => ?_
    refine .bind (alike_assigned node nodeAssignments) fun own => ?_
    refine .bind (alike_assigned edge edgeAssignments) fun onEdge => ?_
    exact .bind (alike_validated child after) fun _ => .pure _
  | .delete link filter before nested =>
    refine .named fun edge node result => ?_
    let child := ctx.enter node (some edge) result
    refine .bind (alike_linkedNodes ctx child link filter) fun found => ?_
    refine .bind (alike_validated child before) fun first => ?_
    exact .bind (alike_after child _ nested) fun _ => .pure _
theorem alike_after (ctx : Context) (before : List Clause) (nested : List Mutation) :
    Alike (Mutation.after (ctx.signedIn b) before (Mutation.eachAskedBy p nested))
      (Mutation.after ctx before nested) := by
  match nested with
  | [] => exact .pure before
  | m :: rest => exact .bind (alike_clause ctx m) fun clause => alike_after ctx _ rest
end

theorem alike_newNode (ctx : Context) (e : Entity) (n : NewNode Mutation) :
    Alike (newNode (ctx.signedIn b) e (n.askedBy p)) (newNode ctx e n) := by
  refine .bind (alike_assigned ctx.subject n.assignments) fun own => ?_
  simp only [NewNode.askedBy, ← Mutation.eachAskedBy_eq]
  refine .bind (alike_after ctx _ n.nested) fun written => ?_
  exact .bind (alike_validated ctx n.validations) fun _ => .pure _

/-- New nodes are written alike, each in the same place of its program. -/
theorem alike_newNodes (ctx : Context) (e : Entity) (isFirst : Bool)
    (nodes : List (NewNode Mutation)) :
    Alike (newNodes (ctx.signedIn b) e isFirst (nodes.map (NewNode.askedBy p)))
      ((fun r => (r.1, r.2.map (Context.signedIn · b))) <$> newNodes ctx e isFirst nodes) := by
  induction nodes generalizing isFirst with
  | nil => exact .pure _
  | cons n rest ih =>
    simp only [List.map_cons, newNodes, map_bind, map_pure]
    refine .bind_changed (alike_branchContext ctx isFirst) fun own => ?_
    refine .bind (alike_newNode own e n) fun body => ?_
    exact .bind_changed (ih false) fun _ => .pure _

theorem alike_projections (fields : List Field) (contexts : List Context) :
    Alike (projections (fields.map (Field.askedBy p)) (contexts.map (Context.signedIn · b)))
      (projections fields contexts) := by
  induction contexts with
  | nil => exact .pure _
  | cons ctx rest ih =>
    simp only [List.map_cons, projections, ← Field.eachAskedBy_eq]
    rw [← Field.eachAskedBy_eq] at ih
    exact .bind (alike_items ctx fields) fun _ => .bind ih fun _ => .pure _

section Operations

variable (ctx : Context)

theorem alike_createClauses (c : Create) :
    Alike (createClauses (ctx.signedIn b) (c.askedBy p)) (createClauses ctx c) := by
  refine .bind_changed (alike_newNodes ctx c.entity true c.nodes) fun made => ?_
  exact .bind (alike_projections c.fields made.2) fun _ => .pure _

theorem alike_updateClauses (u : Update) :
    Alike (updateClauses (ctx.signedIn b) (u.askedBy p)) (updateClauses ctx u) := by
  simp only [updateClauses, Update.askedBy, ← Mutation.eachAskedBy_eq, ← Field.eachAskedBy_eq]
  refine .bind (alike_filteredMatch ctx _ u.filter) fun found => ?_
  refine .bind (alike_validated ctx u.before) fun first => ?_
  refine .bind (alike_assigned ctx.subject u.assignments) fun own => ?_
  refine .bind (alike_after ctx _ u.nested) fun written => ?_
  refine .bind (alike_validated ctx u.after) fun last => ?_
  exact .bind (alike_items ctx u.fields) fun _ => .pure _

theorem alike_deleteClauses (d : Delete) :
    Alike (deleteClauses (ctx.signedIn b) (d.askedBy p)) (deleteClauses ctx d) := by
  simp only [deleteClauses, Delete.askedBy, ← Mutation.eachAskedBy_eq]
  refine .bind (alike_filteredMatch ctx _ d.filter) fun found => ?_
  refine .bind (alike_validated ctx d.before) fun first => ?_
  exact .bind (alike_after ctx _ d.nested) fun _ => .pure _

theorem alike_operationClauses (o : Operation) :
    Alike (operationClauses (ctx.signedIn b) (o.askedBy p)) (operationClauses ctx o) := by
  cases o with
  | lookup l => exact alike_lookupClauses ctx l
  | aggregate a => exact alike_aggregateClauses ctx a
  | create c => exact alike_createClauses ctx c
  | update u => exact alike_updateClauses ctx u
  | delete d => exact alike_deleteClauses ctx d

end Operations

end GraphSelection.Program
