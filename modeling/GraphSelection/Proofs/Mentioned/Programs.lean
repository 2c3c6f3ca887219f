import GraphSelection.Compile
import GraphSelection.Proofs.Mentioned.Scopes
import GraphSelection.Proofs.WellFormed

/-!
Accounts of fields, lookups, changes and whole operations. What is left over adds up over the parts
of a plan, where only the edge lists of connections leave anything over. So the unread parameters of
a program are as many as its plan leaves over, and they are there exactly when a connection asks for
its page info without reading both bounds of its page.
-/
namespace GraphSelection.Program

open Cypher Plan

section Connections

variable {ctx : Context}

theorem mentions_edgeMap (ctx : Context) : mentioned (edgeMap ctx).items = ∅ := by
  unfold edgeMap
  cases ctx.relationship <;> simp [Expr.items, Expr.itemsOfEntries]

@[simp] theorem mentions_unpackEdge (ctx : Context) (edges edge : String) :
    mentioned (Clause.itemsOf (unpackEdge ctx edges edge)) = ∅ := by
  unfold unpackEdge
  cases ctx.relationship <;>
    simp [Clause.items, Expr.items, Expr.itemsOfColumns, Column.named, Expr.propertyOf]

@[simp] theorem mentions_edgesResult (entries : List (String × Expr))
    (typename : Option (String × String)) (result : String) :
    mentioned (edgesResult entries typename result).items =
      mentioned (Expr.itemsOfEntries entries) := by
  unfold edgesResult
  cases typename <;> simp [Expr.items, Expr.itemsOf, Expr.itemsOfEntries, Expr.string]

theorem readMentions_or (b : Bounds) (skip skip' limit limit' : Bool) :
    b.readMentions (skip || skip') (limit || limit') =
      b.readMentions skip' limit' ∪ b.readMentions skip limit := by
  have hor : ∀ (r r' : Bool) (own : Set String),
      (if r || r' then own else ∅) = (if r' then own else ∅) ∪ if r then own else ∅ := by
    intro r r' own
    cases r <;> cases r' <;> simp
  simp only [Bounds.readMentions, hor]
  ac_rfl

theorem readMentions_both (b : Bounds) : b.readMentions true true = b.mentions := by
  simp [Bounds.readMentions, Bounds.mentions]

theorem readMentions_none (b : Bounds) : b.readMentions false false = ∅ := by
  simp [Bounds.readMentions]

/-- The list of edges ends where its page ends. -/
def EdgeList.Ends {φ : Type} (items : List (ConnectionItem φ)) (page : Page) (l : EdgeList) :
    Prop :=
  items.any ConnectionItem.needsPage = true → l.bounds.limit.isSome = page.limit.isSome

theorem mentions_edgeList {φ : Type} {edge : Expr} (h : mentioned edge.items = ∅)
    (items : List (ConnectionItem φ)) (page : Page) :
    Ensures (fun r => mentioned (Clause.itemsOf r.1) = ∅ ∧ r.2.Ends items page)
      (edgeList edge items page) := by
  have hcollect : ∀ edges total,
      mentioned (Clause.itemsOf (collectEdges edge edges total)) = ∅ := by
    simp [collectEdges, Column.named, Column.var, Expr.itemsOfColumns, Expr.items, Expr.itemsOf, h]
  have hlimit : Ensures (fun limit => limit.isSome = page.limit.isSome)
      (countParam page.limit) := by
    cases page.limit with
    | none => exact ensures_pure rfl
    | some n => exact ensures_skip _ fun e => ensures_pure rfl
  refine ensures_skip _ fun edges => ensures_skip _ fun total => ?_
  split
  · refine Ensures.bind (p := fun b : Bounds => b.limit.isSome = page.limit.isSome) ?_
      fun b hb => ensures_pure ⟨hcollect edges total, fun _ => hb⟩
    exact ensures_skip _ fun skip => hlimit.bind fun limit h => ensures_pure h
  next hidle => exact ensures_pure ⟨hcollect edges total, fun h => absurd h hidle⟩

theorem accounts_edgeList {φ : Type} (edge : Expr) (items : List (ConnectionItem φ))
    (page : Page) :
    Accounts (idleBounds items page) ∅
      (fun r => r.2.bounds.readMentions (items.any (·.readsSkip page))
        (items.any ConnectionItem.readsLimit))
      (edgeList edge items page) := by
  refine accounts_skip _ fun edges => accounts_skip _ fun total => ?_
  unfold idleBounds
  split
  · exact (accounts_boundsRead page _ _).last fun b => by simp
  · exact accounts_pure (by simp [Bounds.readMentions, Expr.itemsOfOption])

theorem mentions_pageInfoField {l : EdgeList} {page : Page}
    (h : l.bounds.limit.isSome = page.limit.isSome) (field : PageInfoField) :
    mentioned (l.pageInfo field).2.items =
      l.bounds.readMentions (field.readsSkip page) field.readsLimit := by
  obtain ⟨edges, total, skip, limit⟩ := l
  cases field <;> cases skip <;> cases limit <;>
    simp_all [EdgeList.pageInfo, EdgeList.hasNextPage, EdgeList.hasPreviousPage, Expr.items,
      Expr.bool, Expr.int, Expr.string, Bounds.readMentions, Expr.itemsOfOption,
      PageInfoField.readsSkip, PageInfoField.readsLimit]

theorem mentions_pageInfo {l : EdgeList} {page : Page}
    (h : l.bounds.limit.isSome = page.limit.isSome) (fields : List PageInfoField) :
    mentioned (Expr.map (fields.map l.pageInfo)).items =
      l.bounds.readMentions (fields.any (·.readsSkip page))
        (fields.any PageInfoField.readsLimit) := by
  rw [Expr.items]
  induction fields with
  | nil => simp [Expr.itemsOfEntries, readMentions_none]
  | cons field rest ih =>
    rw [List.any_cons, List.any_cons, readMentions_or, ← ih, ← mentions_pageInfoField h field,
      List.map_cons, Expr.itemsOfEntries, mentioned_append, Set.union_comm]

/-- The entry of an item that is built without a run, before the entries of the other items. -/
theorem Accounts.entry {φ : Type} {l : EdgeList} {page : Page} {item : ConnectionItem φ}
    {rest : List (ConnectionItem φ)} {x : Build (List Clause × List (String × Expr))} {j : Nat}
    {e : Expr} (calls : List Clause) (key : String)
    (hx : Accounts j (l.bounds.readMentions (rest.any (·.readsSkip page))
      (rest.any ConnectionItem.readsLimit)) answerMentions x)
    (hown : mentioned (Clause.itemsOf calls) ∪ mentioned e.items =
      l.bounds.readMentions (item.readsSkip page) item.readsLimit) :
    Accounts j (l.bounds.readMentions ((item :: rest).any (·.readsSkip page))
        ((item :: rest).any ConnectionItem.readsLimit)) answerMentions
      (x >>= fun r => pure (calls ++ r.1, (key, e) :: r.2)) := by
  rw [List.any_cons, List.any_cons, readMentions_or, Set.union_comm]
  exact hx.lastOf fun r => by rw [answerMentions_cons, hown]

theorem accounts_edgeMeasureCall (edges : String) (m : Measure) (result : String) :
    Accounts 0 ∅ Clause.mentions (edgeMeasureCall ctx edges m result) := by
  refine accounts_skip _ fun edge => accounts_fault fun reduced hreduced => accounts_pure ?_
  simp [mentioned_measured hreduced]

end Connections

section Unions

variable {ctx : Context} {α : Type} {j : Nat} {given : Set String}

/-- Steps that only draw names. -/
theorem Accounts.after {β : Type} {x : Build α} {f : α → Build β} {m' : β → Set String}
    (hx : Accounts 0 ∅ (fun _ => ∅) x) (hf : ∀ a, Accounts j given m' (f a)) :
    Accounts j given m' (x >>= f) :=
  hx.andThen fun a => by simpa using hf a

theorem accounts_sortColumns (sort : List SortKey) :
    Accounts 0 ∅ (fun _ => ∅) (sortColumns sort) := by
  induction sort with
  | nil => exact accounts_pure rfl
  | cons key rest ih => exact accounts_skip _ fun name => ih.after fun names => accounts_pure rfl

theorem accounts_branchContext (isFirst : Bool) :
    Accounts 0 ∅ (fun _ => ∅) (branchContext ctx isFirst) := by
  unfold branchContext
  split
  · exact accounts_pure rfl
  · unfold Context.freshSibling
    refine accounts_skip _ fun subject => ?_
    split
    · exact accounts_pure rfl
    · exact accounts_skip _ fun relationship => accounts_pure rfl

theorem mentioned_mergedOrder {value : String → Expr} (h : ∀ name, mentioned (value name).items = ∅)
    (sort : List SortKey) (columns : List String) :
    mentioned (Expr.itemsOfOrder (mergedOrder value sort columns)) = ∅ := by
  unfold mergedOrder
  induction sort.zip columns with
  | nil => simp [Expr.itemsOfOrder]
  | cons pair rest ih => simp [Expr.itemsOfOrder, h, ih]

theorem accounts_mergedWindow (column : String) (sort : List SortKey) (columns : List String)
    (page : Page) : Accounts 0 ∅ mentionsOf (mergedWindow column sort columns page) := by
  have hcolumns : mentioned (Expr.itemsOfColumns (columns.map Column.var)) = ∅ := by
    induction columns with
    | nil => simp [Expr.itemsOfColumns]
    | cons name rest ih => simpa [Expr.itemsOfColumns, Column.var, Expr.items] using ih
  have horder : mentioned (Expr.itemsOfOrder (mergedOrder .var sort columns)) = ∅ :=
    mentioned_mergedOrder (by simp [Expr.items]) sort columns
  unfold mergedWindow
  split
  · exact accounts_pure (by simp)
  · refine (accounts_bounds page).last fun b => ?_
    simp [Clause.items, Expr.itemsOfColumns, Column.var, Expr.items, hcolumns, horder,
      Expr.itemsOfOption, Bounds.mentions]

theorem accounts_mergedEdgesCall (l : EdgeList) (sort : List SortKey) (columns : List String)
    (node properties : Option String) (typename : Option (String × String)) :
    Accounts 0 l.bounds.mentions (fun r => mentioned (Clause.itemsOf r.1) ∪ mentioned r.2.items)
      (mergedEdgesCall l sort columns node properties typename) := by
  refine accounts_skip _ fun result => accounts_skip _ fun edge => accounts_pure ?_
  have hentry : ∀ (key : Option String) (name : String), mentioned (Expr.itemsOfEntries
      (key.map fun key => (key, Expr.propertyOf edge name)).toList) = ∅ := by
    intro key name
    cases key <;> simp [Expr.itemsOfEntries, Expr.propertyOf, Expr.items]
  have horder : mentioned (Expr.itemsOfOrder
      (mergedOrder (Expr.propertyOf edge) sort columns)) = ∅ :=
    mentioned_mergedOrder (by simp [Expr.propertyOf, Expr.items]) sort columns
  split
  next h =>
    rw [mentions_isWhole (Bool.and_eq_true .. |>.mp h).2]
    simp [Clause.items, Expr.items, hentry]
  next =>
    simp [Clause.items, Expr.items, hentry, Expr.itemsOfColumns, Column.var, horder,
      Expr.itemsOfOption, Bounds.mentions]

theorem accounts_mergedEntries {φ : Type} {l : EdgeList} {page : Page} (composite : String)
    (sort : List SortKey) (columns : List String) (items : List (ConnectionItem φ))
    (h : l.Ends items page) :
    Accounts 0 (l.bounds.readMentions (items.any (·.readsSkip page))
        (items.any ConnectionItem.readsLimit)) answerMentions
      (mergedEntries l composite sort columns items) := by
  induction items with
  | nil => exact accounts_pure (by simp [answerMentions_nil, readMentions_none])
  | cons item rest ih =>
    have hrest : l.Ends rest page := fun hneeds => h (by simp [hneeds])
    rw [List.any_cons, List.any_cons, readMentions_or]
    refine Accounts.stepOf (i := 0) (j := 0)
      (m := fun r : List Clause × Expr => mentioned (Clause.itemsOf r.1) ∪ mentioned r.2.items) ?_
      fun first => ?_
    · cases item with
      | edges key node properties typename =>
        exact (accounts_mergedEdgesCall ..).congr rfl (readMentions_both _) fun _ => rfl
      | aggregate key items => exact accounts_fail _
      | totalCount key =>
        exact accounts_pure (by simp [Expr.items, ConnectionItem.readsSkip,
          ConnectionItem.readsLimit, readMentions_none])
      | pageInfo key fields =>
        have hends := h (by simp [ConnectionItem.needsPage])
        exact accounts_pure (by simp [mentions_pageInfo hends, ConnectionItem.readsSkip,
          ConnectionItem.readsLimit])
      | typename key typeName =>
        exact accounts_pure (by simp [Expr.items, Expr.string, ConnectionItem.readsSkip,
          ConnectionItem.readsLimit, readMentions_none])
    · rw [Set.union_comm]
      exact (ih hrest).lastOf fun more => answerMentions_cons ..

theorem mentions_sortValues (sort : List SortKey) :
    Ensures (fun r => mentioned (Expr.itemsOf (r.2.map OrderKey.expression)) = ∅)
      (sortValues ctx sort) := by
  induction sort with
  | nil => exact ensures_pure (by simp [Expr.itemsOf])
  | cons key rest ih =>
    have hvalue : Ensures (fun r => mentioned r.2.items = ∅) (sortValue ctx key) := by
      unfold sortValue
      split
      · exact ensures_pure (by simp [Expr.propertyOf, Expr.items])
      · exact ensures_skip _ fun edge => ensures_pure (by simp [Expr.propertyOf, Expr.items])
      · exact ensures_skip _ fun name => ensures_skip _ fun call =>
          ensures_pure (by simp [Expr.items])
    refine hvalue.bind fun first hfirst => ih.bind fun more hmore => ensures_pure ?_
    simp [Expr.itemsOf, hfirst, hmore]

theorem accounts_branchKeys (sort : List SortKey) (columns : List String) :
    Accounts 0 ∅ answerMentions (branchKeys ctx sort columns) := by
  have hzip : ∀ (names : List String) (es : List Expr), mentioned (Expr.itemsOf es) = ∅ →
      mentioned (Expr.itemsOfEntries (names.zip es)) = ∅ := by
    intro names es
    induction names generalizing es with
    | nil => simp [Expr.itemsOfEntries]
    | cons name rest ih =>
      intro hes
      cases es with
      | nil => simp [Expr.itemsOfEntries]
      | cons e more =>
        simp only [Expr.itemsOf, mentioned_append, Set.union_empty_iff] at hes
        simp [Expr.itemsOfEntries, hes.1, ih more hes.2]
  have horder : ∀ keys : List (OrderKey Expr),
      mentioned (Expr.itemsOf (keys.map OrderKey.expression)) =
        mentioned (Expr.itemsOfOrder keys) := by
    intro keys
    induction keys with
    | nil => simp [Expr.itemsOf, Expr.itemsOfOrder]
    | cons key rest ih => simp [Expr.itemsOf, Expr.itemsOfOrder, ih]
  refine (accounts_sortValues _).stepOn (j := 0) (mentions_sortValues _) fun r hr => ?_
  exact accounts_pure (by simp [answerMentions, hzip _ _ hr, ← horder, hr])

theorem mentioned_union {composite column : String} {bodies : List (List Clause)} {union : Clause}
    (h : unionCall composite bodies column = .ok union) :
    mentioned union.items = mentioned (Clause.itemsOfBranches bodies) := by
  unfold unionCall at h
  split at h
  · cases h
    simp [Clause.items, Expr.items, Expr.itemsOf, Clause.itemsOfBranches]
  · split at h
    · cases h
    · cases h
      simp [Clause.items]

end Unions

section Fields

theorem mentioned_shownValue (a : Attribute) (name key : String) :
    mentioned (shownValue a (.propertyOf name key)).items = ∅ := by
  unfold shownValue
  split
  · simp [Expr.propertyOf, Expr.items]
  · split
    · simp [Expr.propertyOf, Expr.items, Expr.itemsOf]
    · split <;> simp [Expr.propertyOf, Expr.items, Expr.itemsOfEntries, Expr.null]

theorem mentioned_storedItem (name key : String) (a : Attribute) :
    mentioned (Expr.itemsOfProjection [storedItem name key a]) = ∅ := by
  unfold storedItem
  dsimp only
  split <;> simp [Expr.itemsOfProjection, mentioned_shownValue]

theorem itemsOfProjection_cons (item : MapItem Expr) (rest : List (MapItem Expr)) :
    Expr.itemsOfProjection (item :: rest) =
      Expr.itemsOfProjection [item] ++ Expr.itemsOfProjection rest := by
  cases item <;> simp [Expr.itemsOfProjection]

/-- The properties of a relationship are stored values. -/
theorem mentioned_edgeProjection {ctx : Context} {fields : List EdgeField} {e : Expr}
    (h : edgeProjection ctx fields = .ok e) : mentioned e.items = ∅ := by
  simp only [edgeProjection, except_bind_ok, except_pure_ok] at h
  obtain ⟨edge, _, rfl⟩ := h
  rw [Expr.items]
  induction fields with
  | nil => simp [Expr.itemsOfProjection]
  | cons field rest ih =>
    rw [List.map_cons, itemsOfProjection_cons, mentioned_append, ih, Set.union_empty]
    cases field with
    | stored key a => exact mentioned_storedItem edge key a
    | typename key typeName => simp [edgeItem, Expr.itemsOfProjection, Expr.string, Expr.items]

theorem accounts_nestedCall {ctx : Context} {i : Nat} {body : Context → Build (List Clause)}
    (h : ∀ inner, Accounts i ∅ mentionsOf (body inner)) :
    Accounts i ∅ (fun r => mentioned (Clause.itemsOf r.1) ∪ mentioned r.2.items)
      (nestedCall ctx body) := by
  refine accounts_skip _ fun edge => accounts_skip _ fun node => accounts_skip _ fun result => ?_
  exact (h _).last fun clauses => by simp [Expr.items]

theorem mentioned_readResult (ctx : Context) (scope : Scope) (projection : Expr) :
    mentioned (Clause.itemsOf (readResult ctx scope projection)) = mentioned projection.items := by
  unfold readResult
  split <;> simp [mentioned_collected, Expr.itemsOfColumns, Column.named, Expr.items]

theorem mentioned_compositeResult (ctx : Context) (relationship : Option Relationship)
    (column : String) : mentioned (compositeResult ctx relationship column).items = ∅ := by
  unfold compositeResult
  split <;> simp [mentioned_collected, Expr.items]

theorem mentions_giveKeys (e : Expr) (column : String) (keys : List (String × Expr)) :
    mentioned (Clause.giveAll (Column.named e column ::
        keys.map fun (name, e) => Column.named e name)).items =
      mentioned e.items ∪ mentioned (Expr.itemsOfEntries keys) := by
  have hkeys : mentioned (Expr.itemsOfColumns (keys.map fun (name, e) => Column.named e name)) =
      mentioned (Expr.itemsOfEntries keys) := by
    induction keys with
    | nil => simp [Expr.itemsOfColumns, Expr.itemsOfEntries]
    | cons key rest ih =>
      simp only [List.map_cons, Expr.itemsOfColumns, Column.named, Expr.itemsOfEntries,
        mentioned_append, ← ih]
  rw [← hkeys]
  simp [Clause.giveAll, Clause.items, Expr.itemsOfColumns, Column.named]

/-- What calls and the entries of a projection mention. -/
def projectionMentions (r : List Clause × List (MapItem Expr)) : Set String :=
  mentioned (Clause.itemsOf r.1) ∪ mentioned (Expr.itemsOfProjection r.2)

theorem projectionMentions_cons (calls : List Clause) (item : MapItem Expr)
    (r : List Clause × List (MapItem Expr)) :
    projectionMentions (calls ++ r.1, item :: r.2) =
      projectionMentions (calls, [item]) ∪ projectionMentions r := by
  simp only [projectionMentions, clauseItems_append, mentioned_append,
    itemsOfProjection_cons item r.2]
  ac_rfl

mutual
theorem accounts_item (ctx : Context) (f : Field) :
    Accounts (idleBoundsOf f.parts) ∅ (fun r => projectionMentions (r.1, [r.2]))
      (Field.item ctx f) := by
  match f with
  | .stored key a =>
    exact accounts_pure (by simp [projectionMentions, mentioned_storedItem])
  | .typename key typeName =>
    exact accounts_pure
      (by simp [projectionMentions, Expr.itemsOfProjection, Expr.string, Expr.items])
  | .computed key a =>
    refine accounts_skip _ fun name => (accounts_computedCall a name).last fun call => ?_
    simp [projectionMentions, Expr.itemsOfProjection, Expr.items]
  | .lookup key l =>
    refine Accounts.congr ?_ (Nat.zero_add _) rfl fun _ => rfl
    refine (accounts_nestedCall fun inner => accounts_lookupClauses inner l).last fun r => ?_
    simp [projectionMentions, Expr.itemsOfProjection]
  | .aggregate key a =>
    refine (accounts_nestedCall fun inner => accounts_aggregateClauses a).last fun r => ?_
    simp [projectionMentions, Expr.itemsOfProjection]
theorem accounts_items (ctx : Context) (fields : List Field) :
    Accounts (idleBoundsOf (Field.partsOf fields)) ∅ projectionMentions
      (Field.items ctx fields) := by
  match fields with
  | [] => exact accounts_pure (by simp [projectionMentions, Expr.itemsOfProjection])
  | f :: rest =>
    rw [Field.partsOf, idleBoundsOf_append]
    refine (accounts_item ctx f).step fun first => (accounts_items ctx rest).last fun more => ?_
    rw [projectionMentions_cons, Set.empty_union]
theorem accounts_lookupClauses (ctx : Context) (l : Lookup Field) :
    Accounts (idleBoundsOf (Field.lookupParts l)) ∅ mentionsOf (Field.lookupClauses ctx l) := by
  match l with
  | .read ⟨scope, fields, sort, page⟩ =>
    refine Accounts.congr ?_ (Nat.zero_add _) rfl fun _ => rfl
    refine (accounts_distinctNodes scope).andThen fun found => ?_
    refine (accounts_arranged sort page).andThen fun window => ?_
    refine (accounts_items ctx fields).last fun r => ?_
    simp [mentioned_readResult, projectionMentions, Expr.items, Set.union_assoc]
  | .connection ⟨scope, sort, page, items⟩ =>
    rw [Field.lookupParts, idleBoundsOf_cons, Part.idleBounds, Lookup.idleBounds]
    refine (accounts_scopeMatch scope).andThen fun found => ?_
    refine (accounts_edgeList _ items page).stepOn
      (mentions_edgeList (mentions_edgeMap ctx) items page) fun edges hedges => ?_
    refine (accounts_entries ctx edges.2 sort items hedges.2).lastOf fun r => ?_
    simp [hedges.1, answerMentions, Expr.items]
  | .composite ⟨composite, relationship, branches, sort, page⟩ =>
    refine Accounts.congr ?_ (Nat.zero_add _) rfl fun _ => rfl
    refine accounts_skip _ fun column => (accounts_sortColumns sort).after fun columns => ?_
    refine (accounts_branches ctx column columns true branches).step (j := 0) fun bodies => ?_
    refine accounts_fault fun union hunion => ?_
    refine (accounts_mergedWindow column sort columns page).last fun window => ?_
    simp [mentioned_union hunion, mentioned_compositeResult]
  | .compositeConnection ⟨composite, relationship, branches, sort, page, items⟩ =>
    rw [Field.lookupParts, idleBoundsOf_cons, Part.idleBounds, Lookup.idleBounds, Nat.add_comm]
    refine accounts_skip _ fun column => (accounts_sortColumns sort).after fun columns => ?_
    refine (accounts_connectionBranches ctx column columns true branches).step fun bodies => ?_
    refine accounts_fault fun union hunion => ?_
    refine Accounts.congr ?_ (Nat.add_zero _).symm rfl fun _ => rfl
    refine (accounts_edgeList (.var column) items page).stepOn
      (mentions_edgeList (by simp [Expr.items]) items page) fun edges hedges => ?_
    refine (accounts_mergedEntries composite.name sort columns items hedges.2).lastOf fun r => ?_
    simp [mentioned_union hunion, hedges.1, answerMentions, Expr.items]
theorem accounts_entries (ctx : Context) (l : EdgeList) {page : Page} (sort : List SortKey)
    (items : List (ConnectionItem Field)) (h : l.Ends items page) :
    Accounts (idleBoundsOf (Field.itemParts items))
      (l.bounds.readMentions (items.any (·.readsSkip page))
        (items.any ConnectionItem.readsLimit)) answerMentions (Field.entries ctx l sort items) := by
  match items with
  | [] => exact accounts_pure (by simp [answerMentions_nil, readMentions_none])
  | .edges key node properties typename :: rest =>
    have hrest : l.Ends rest page := fun hneeds => h (by simp [hneeds])
    rw [Field.itemParts, idleBoundsOf_append, List.any_cons, List.any_cons, readMentions_or]
    simp only [ConnectionItem.readsSkip, ConnectionItem.readsLimit, readMentions_both]
    refine accounts_skip _ fun result => accounts_skip _ fun edge => ?_
    refine Accounts.congr ?_ (Nat.zero_add _).symm rfl fun _ => rfl
    refine (accounts_orderedWindow sort l.bounds).stepOf fun window => ?_
    refine (accounts_nodeEntry ctx node).step fun shown => ?_
    refine accounts_fault fun entries hentries => ?_
    have hproperties : mentioned (Expr.itemsOfEntries entries) = ∅ := by
      match properties with
      | none =>
        rw [except_pure_ok] at hentries
        simp [← hentries, Expr.itemsOfEntries]
      | some (own, fields) =>
        simp only [except_bind_ok, except_pure_ok] at hentries
        obtain ⟨e, he, rfl⟩ := hentries
        simp [Expr.itemsOfEntries, mentioned_edgeProjection he]
    refine Accounts.congr ?_ rfl ((Set.union_assoc ..).trans (Set.union_comm ..)) fun _ => rfl
    refine (accounts_entries ctx l sort rest hrest).lastOf fun more => ?_
    refine (answerMentions_cons [_] key _ more).trans ?_
    simp [hproperties, answerMentions, Expr.items]
  | .aggregate key aggregates :: rest =>
    have hrest : l.Ends rest page := fun hneeds => h (by simp [hneeds])
    refine (accounts_aggregateEntries (accounts_edgeMeasureCall l.edges) aggregates).andThen
      fun group => ?_
    refine Accounts.congr ?_ rfl (Set.union_comm ..) fun _ => rfl
    refine (accounts_entries ctx l sort rest hrest).lastOf fun more => ?_
    rw [answerMentions_cons]
    simp [answerMentions, Expr.items]
  | .totalCount key :: rest =>
    have hrest : l.Ends rest page := fun hneeds => h (by simp [hneeds])
    exact (accounts_entries ctx l sort rest hrest).entry [] key
      (by simp [Expr.items, ConnectionItem.readsSkip, ConnectionItem.readsLimit, readMentions_none])
  | .pageInfo key fields :: rest =>
    have hrest : l.Ends rest page := fun hneeds => h (by simp [hneeds])
    have hends := h (by simp [ConnectionItem.needsPage])
    exact (accounts_entries ctx l sort rest hrest).entry [] key
      (by simp [mentions_pageInfo hends, ConnectionItem.readsSkip, ConnectionItem.readsLimit])
  | .typename key typeName :: rest =>
    have hrest : l.Ends rest page := fun hneeds => h (by simp [hneeds])
    exact (accounts_entries ctx l sort rest hrest).entry [] key
      (by simp [Expr.items, Expr.string, ConnectionItem.readsSkip, ConnectionItem.readsLimit,
        readMentions_none])
theorem accounts_nodeEntry (ctx : Context) (node : Option (String × List Field)) :
    Accounts (idleBoundsOf (Field.nodeParts node)) ∅ answerMentions
      (Field.nodeEntry ctx node) := by
  match node with
  | none => exact accounts_pure answerMentions_nil
  | some (key, fields) =>
    exact (accounts_items ctx fields).last fun r => by
      simp [answerMentions, projectionMentions, Expr.itemsOfEntries, Expr.items]
theorem accounts_branches (ctx : Context) (column : String) (columns : List String)
    (isFirst : Bool) (branches : List (Read Field)) :
    Accounts (idleBoundsOf (Field.branchParts branches)) ∅
      (fun bodies => mentioned (Clause.itemsOfBranches bodies))
      (Field.branches ctx column columns isFirst branches) := by
  match branches with
  | [] => exact accounts_pure (by simp [Clause.itemsOfBranches])
  | ⟨scope, fields, sort, page⟩ :: rest =>
    rw [Field.branchParts, idleBoundsOf_append]
    refine (accounts_branchContext isFirst).after fun own => ?_
    refine accounts_importParent.andThen fun start => ?_
    refine (accounts_distinctNodes scope).andThen fun found => ?_
    refine (accounts_items own fields).step fun shown => ?_
    refine (accounts_branchKeys sort columns).andThen fun keys => ?_
    refine (accounts_branches ctx column columns false rest).last fun bodies => ?_
    simp only [Clause.itemsOfBranches, mentioned_list, List.cons_append, clauseItems_append,
      clauseItems_cons, clauseItems_nil, mentioned_append, mentions_giveKeys, mentionsOf,
      projectionMentions, answerMentions, Expr.items, mentioned_nil, Set.union_empty,
      Set.empty_union]
    ac_rfl
theorem accounts_connectionBranches (ctx : Context) (column : String)
    (columns : List String) (isFirst : Bool) (branches : List (ConnectionBranch Field)) :
    Accounts (idleBoundsOf (Field.connectionBranchParts branches)) ∅
      (fun bodies => mentioned (Clause.itemsOfBranches bodies))
      (Field.connectionBranches ctx column columns isFirst branches) := by
  match branches with
  | [] => exact accounts_pure (by simp [Clause.itemsOfBranches])
  | ⟨⟨scope, fields, sort, page⟩, edgeFields⟩ :: rest =>
    rw [Field.connectionBranchParts, idleBoundsOf_append]
    refine (accounts_branchContext isFirst).after fun own => ?_
    refine accounts_importParent.andThen fun start => ?_
    refine (accounts_scopeMatch scope).andThen fun found => ?_
    refine (accounts_items own fields).step fun shown => ?_
    refine accounts_fault fun properties hproperties => ?_
    refine (accounts_branchKeys sort columns).andThen fun keys => ?_
    refine (accounts_connectionBranches ctx column columns false rest).last fun bodies => ?_
    have hown : mentioned (Expr.itemsOfEntries properties) = ∅ := by
      split at hproperties
      · rw [except_pure_ok] at hproperties
        simp [← hproperties, Expr.itemsOfEntries]
      · simp only [except_bind_ok, except_pure_ok] at hproperties
        obtain ⟨e, he, rfl⟩ := hproperties
        simp [Expr.itemsOfEntries, mentioned_edgeProjection he]
    simp only [Clause.itemsOfBranches, mentioned_list, List.cons_append, clauseItems_append,
      clauseItems_cons, clauseItems_nil, mentioned_append, mentions_give, Expr.itemsOfEntries,
      itemsOfEntries_append, hown, mentionsOf, projectionMentions, answerMentions, Expr.items,
      mentioned_nil, Set.union_empty, Set.empty_union]
    ac_rfl
end

end Fields

section Changes

variable {ctx : Context}

theorem mentioned_andThen (before after : List Clause) :
    mentioned (Clause.itemsOf (andThen before after)) =
      mentioned (Clause.itemsOf before) ∪ mentioned (Clause.itemsOf after) := by
  unfold andThen
  split <;> simp

theorem mentions_counted (ctx : Context) (body : List Clause) (result : String) :
    mentioned (counted ctx body result).items = mentioned (Clause.itemsOf body) := by
  simp [counted, Expr.items, Expr.itemsOf]

theorem accounts_assigned (name : String) (assignments : List Assignment) :
    Accounts 0 ∅ mentionsOf (assigned name assignments) := by
  have hpairs : Accounts 0 ∅ (fun pairs => mentioned (Expr.itemsOfPairs pairs))
      (assignmentList name assignments) := by
    induction assignments with
    | nil => exact accounts_pure (by simp [Expr.itemsOfPairs])
    | cons a rest ih =>
      have hpair : Accounts 0 ∅ (fun pair => mentioned (Expr.itemsOfPairs [pair]))
          (assignment name a) :=
        (accounts_typedParam ..).last fun value => by
          simp [Expr.itemsOfPairs, Expr.propertyOf, Expr.items]
      refine hpair.andThen fun pair => ih.last fun pairs => ?_
      obtain ⟨left, right⟩ := pair
      simp [Expr.itemsOfPairs, Set.union_assoc]
  refine hpairs.last fun pairs => ?_
  split
  next h => simp [List.isEmpty_iff.mp h, Expr.itemsOfPairs]
  next => simp [Clause.items]

theorem accounts_linkedNodes (ctx child : Context) (link : Link) (filter : Option Condition) :
    Accounts 0 ∅ mentionsOf (linkedNodes ctx child link filter) :=
  accounts_fault fun _ _ => accounts_filteredMatch _ filter

mutual
theorem accounts_clause (ctx : Context) (m : Mutation) :
    Accounts 0 ∅ Clause.mentions (Mutation.clause ctx m) := by
  match m with
  | .create link ⟨assignments, nested, validations⟩ edgeAssignments =>
    refine accounts_skip _ fun edge => accounts_skip _ fun node => accounts_skip _ fun result => ?_
    refine (accounts_assigned node assignments).andThen fun own => ?_
    refine (accounts_assigned edge edgeAssignments).andThen fun onEdge => ?_
    refine Accounts.congr ((accounts_after _ _ nested).bind (j := 0) fun written => ?_) rfl ?_
      fun _ => rfl
    · refine (accounts_validated validations).last fun checks => ?_
      simp [mentions_counted, mentioned_andThen]
    · simp [Clause.items]
  | .connect link filter edgeAssignments validations =>
    refine accounts_skip _ fun edge => accounts_skip _ fun node => accounts_skip _ fun result => ?_
    refine (accounts_filteredMatch _ filter).andThen fun found => ?_
    refine (accounts_assigned edge edgeAssignments).andThen fun onEdge => ?_
    refine (accounts_validated validations).last fun checks => ?_
    simp [mentions_counted, mentioned_andThen, Clause.items]
  | .disconnect link filter validations =>
    refine accounts_skip _ fun edge => accounts_skip _ fun node => accounts_skip _ fun result => ?_
    refine (accounts_linkedNodes _ _ link filter).andThen fun found => ?_
    refine (accounts_validated validations).last fun checks => ?_
    simp [mentions_counted, Clause.items]
  | .update link filter before nodeAssignments edgeAssignments after =>
    refine accounts_skip _ fun edge => accounts_skip _ fun node => accounts_skip _ fun result => ?_
    refine (accounts_linkedNodes _ _ link filter).andThen fun found => ?_
    refine (accounts_validated before).andThen fun first => ?_
    refine (accounts_assigned node nodeAssignments).andThen fun own => ?_
    refine (accounts_assigned edge edgeAssignments).andThen fun onEdge => ?_
    refine (accounts_validated after).last fun last => ?_
    simp [mentions_counted, mentioned_andThen, Set.union_assoc]
  | .delete link filter before nested =>
    refine accounts_skip _ fun edge => accounts_skip _ fun node => accounts_skip _ fun result => ?_
    refine (accounts_linkedNodes _ _ link filter).andThen fun found => ?_
    refine (accounts_validated before).andThen fun first => ?_
    refine Accounts.congr ((accounts_after _ _ nested).bind (j := 0) fun written => ?_) rfl ?_
      fun _ => rfl
    · exact accounts_pure (by simp [mentions_counted, mentioned_andThen, Clause.items])
    · simp
theorem accounts_after (ctx : Context) (before : List Clause) (ms : List Mutation) :
    Accounts 0 (mentionsOf before) mentionsOf (Mutation.after ctx before ms) := by
  match ms with
  | [] => exact accounts_pure rfl
  | m :: rest =>
    refine (accounts_clause ctx m).andThen fun clause => ?_
    exact (accounts_after ctx (andThen before [clause]) rest).congr rfl
      (by simp [mentioned_andThen]) fun _ => rfl
end

theorem accounts_newNode (e : Entity) (n : NewNode Mutation) :
    Accounts 0 ∅ mentionsOf (newNode ctx e n) := by
  refine (accounts_assigned _ n.assignments).andThen fun own => ?_
  refine Accounts.congr ((accounts_after ctx _ n.nested).bind (j := 0) fun written => ?_) rfl ?_
    fun _ => rfl
  · exact (accounts_validated n.validations).last fun checks => by simp [mentioned_andThen]
  · simp [Clause.items]

/-- There is one context for each new node. -/
theorem newNodes_contexts (e : Entity) (isFirst : Bool) (ns : List (NewNode Mutation)) :
    Ensures (fun r => r.2.length = ns.length) (newNodes ctx e isFirst ns) := by
  induction ns generalizing isFirst with
  | nil => exact ensures_pure rfl
  | cons n rest ih =>
    refine ensures_skip _ fun own => ensures_skip _ fun body => (ih false).bind fun r hr => ?_
    exact ensures_pure (congrArg Nat.succ hr)

theorem accounts_newNodes (e : Entity) (isFirst : Bool) (ns : List (NewNode Mutation)) :
    Accounts 0 ∅ (fun r => mentioned (Clause.itemsOf r.1)) (newNodes ctx e isFirst ns) := by
  induction ns generalizing isFirst with
  | nil => exact accounts_pure (by simp)
  | cons n rest ih =>
    refine (accounts_branchContext isFirst).after fun own => ?_
    refine (accounts_newNode e n).andThen fun body => (ih false).last fun r => ?_
    simp [Clause.giveAll, Clause.items, Expr.itemsOfColumns, Column.var, Expr.items]

theorem accounts_projections (fields : List Field) (contexts : List Context) :
    Accounts (contexts.length * idleBoundsOf (Field.partsOf fields)) ∅
      (fun r => mentioned (Clause.itemsOf r.1) ∪ mentioned (Expr.itemsOf r.2))
      (projections fields contexts) := by
  induction contexts with
  | nil => exact (accounts_pure (by simp [Expr.itemsOf])).congr (by simp) rfl fun _ => rfl
  | cons ctx rest ih =>
    rw [List.length_cons, Nat.succ_mul, Nat.add_comm]
    refine (accounts_items ctx fields).step fun first => ih.last fun more => ?_
    simp only [clauseItems_append, mentioned_append, Expr.itemsOf, Expr.items, projectionMentions,
      Set.empty_union]
    ac_rfl

theorem accounts_createClauses (c : Create) :
    Accounts (c.nodes.length * idleBoundsOf (Field.partsOf c.fields)) ∅ mentionsOf
      (createClauses ctx c) := by
  refine Accounts.congr (i := 0 + _) ?_ (Nat.zero_add _).symm rfl fun _ => rfl
  refine (accounts_newNodes c.entity true c.nodes).stepOn
    (newNodes_contexts c.entity true c.nodes) fun r hr => ?_
  rw [← hr]
  refine (accounts_projections c.fields r.2).last fun shown => ?_
  simp [Expr.items]

theorem accounts_updateClauses (u : Update) :
    Accounts (idleBoundsOf (Field.partsOf u.fields)) ∅ mentionsOf (updateClauses ctx u) := by
  refine (accounts_filteredMatch _ u.filter).andThen fun found => ?_
  refine (accounts_validated u.before).andThen fun first => ?_
  refine (accounts_assigned ctx.subject u.assignments).andThen fun own => ?_
  refine Accounts.congr ((accounts_after ctx _ u.nested).bind fun written => ?_)
    (Nat.zero_add _).symm ?_ fun _ => rfl
  · refine (accounts_validated u.after).andThen fun last => ?_
    refine (accounts_items ctx u.fields).last fun shown => ?_
    simp [mentioned_andThen, projectionMentions, Expr.items, Expr.itemsOf, Set.union_assoc]
  · simp [Set.union_assoc]

theorem accounts_deleteClauses (d : Delete) :
    Accounts 0 ∅ mentionsOf (deleteClauses ctx d) := by
  refine (accounts_filteredMatch _ d.filter).andThen fun found => ?_
  refine (accounts_validated d.before).andThen fun first => ?_
  refine Accounts.congr ((accounts_after ctx _ d.nested).bind (j := 0) fun written => ?_) rfl ?_
    fun _ => rfl
  · exact accounts_pure (by simp [mentioned_andThen, Clause.items])
  · simp

mutual
theorem idleBoundsOf_change (m : Mutation) : idleBoundsOf m.parts = 0 := by
  match m with
  | .create link ⟨assignments, nested, validations⟩ edge =>
    simp [Mutation.parts, Part.idleBounds, idleBoundsOf_changes nested]
  | .connect link filter edge validations => simp [Mutation.parts, Part.idleBounds]
  | .disconnect link filter validations => simp [Mutation.parts, Part.idleBounds]
  | .update link filter before node edge after => simp [Mutation.parts, Part.idleBounds]
  | .delete link filter before nested =>
    simp [Mutation.parts, Part.idleBounds, idleBoundsOf_changes nested]
/-- Changes by themselves leave no bound of a page over. -/
theorem idleBoundsOf_changes (ms : List Mutation) : idleBoundsOf (Mutation.partsOf ms) = 0 := by
  match ms with
  | [] => simp [Mutation.partsOf]
  | m :: rest => simp [Mutation.partsOf, idleBoundsOf_change m, idleBoundsOf_changes rest]
end

theorem accounts_programOf (terms : Terms) (o : Operation) :
    Accounts o.idleBounds ∅ mentionsOf (programOf terms o) := by
  refine accounts_skip _ fun subject => ?_
  cases o with
  | lookup l => exact accounts_lookupClauses _ l
  | aggregate a => exact accounts_aggregateClauses a
  | create c => exact accounts_createClauses c
  | update u =>
    refine (accounts_updateClauses u).congr ?_ rfl fun _ => rfl
    simp [Operation.idleBounds, Operation.parts, Part.idleBounds, idleBoundsOf_changes]
  | delete d =>
    refine (accounts_deleteClauses d).congr ?_ rfl fun _ => rfl
    simp [Operation.idleBounds, Operation.parts, Part.idleBounds, idleBoundsOf_changes]

end Changes

end GraphSelection.Program

namespace GraphSelection

open Cypher Plan Resolve Program Minting

/-- Parameters are drawn from one supply, so that no two have the same name. -/
theorem keys_nodup {s : Setup} {r : Request} {o : Operation} {p : Compiled} {t : Supply}
    (hplan : s.plan r = .ok o) (hprogram : programOf s.terms o {} = .ok (p.clauses, t))
    (hparams : p.params = t.params) : p.params.keys.Nodup := by
  have hgrants : Grants (p.policy s.schema) (Concludes (p.policy s.schema) o)
      (programOf s.terms o) :=
    grants_programOf rfl (parts_allowed hplan p)
  obtain ⟨names, hdraws⟩ := hgrants.draws {} p.clauses t hprogram
  obtain ⟨made, hmade, hsub, _⟩ := hdraws.drawn.params
  obtain rfl : p.params = made := by simpa [hparams] using hmade
  exact ((drawn_earlier hdraws.drawn).sublist hsub).imp Earlier.ne

theorem mentioned_program (p : Compiled) (x : String) :
    .param x ∈ p.items ↔ x ∈ mentionsOf p.clauses := by
  simp [Compiled.items, mentioned]

/-- A program has as many parameters that it does not mention as its plan leaves bounds over, and
mentions all its parameters exactly when the plan leaves none. -/
theorem compile_unread (s : Setup) (r : Request) (p : Compiled) (h : compile s r = .ok p) :
    ∃ o, s.plan r = .ok o ∧
      (∃ unread : List String, unread.Nodup ∧ unread.length = o.idleBounds ∧
        ∀ x, x ∈ unread ↔ x ∈ p.params.keys ∧ .param x ∉ p.items) ∧
      ((∀ x ∈ p.params.keys, .param x ∈ p.items) ↔ o.idleBounds = 0) := by
  obtain ⟨o, t, hplan, hprogram, hparams, _⟩ := Scoping.compile_ok h
  obtain ⟨added, used, left, hadded, hperm, hleft, hmentions⟩ :=
    (accounts_programOf s.terms o).run {} p.clauses t hprogram
  obtain rfl : p.params = added := by simpa [hparams] using hadded
  have hnodup : (used ++ left).Nodup := hperm.nodup_iff.mp (keys_nodup hplan hprogram hparams)
  have hread : ∀ x, .param x ∈ p.items ↔ x ∈ used := by
    intro x
    simp [mentioned_program, hmentions]
  have hunread : ∀ x, x ∈ left ↔ x ∈ p.params.keys ∧ .param x ∉ p.items := by
    intro x
    rw [hperm.mem_iff, List.mem_append, hread]
    have hapart := (List.nodup_append.mp hnodup).2.2
    constructor
    · exact fun hx => ⟨.inr hx, fun hused => hapart x hused x hx rfl⟩
    · rintro ⟨hx, hnot⟩
      exact hx.resolve_left hnot
  refine ⟨o, hplan, ⟨left, (List.nodup_append.mp hnodup).2.1, hleft, hunread⟩, ?_⟩
  rw [← hleft, List.length_eq_zero_iff, List.eq_nil_iff_forall_not_mem]
  constructor
  · exact fun hall x hx => ((hunread x).mp hx).2 (hall x ((hunread x).mp hx).1)
  · exact fun hnone x hx => by_contra fun hnot => hnone x ((hunread x).mpr ⟨hx, hnot⟩)

/-- The first films, of which only the start of the page is asked for. -/
def Stage.opening : Request :=
  { operation := .connection
    entity := "Film"
    args := [("first", .int 5)]
    selection := [(Selection.leaf "pageInfo").select [.leaf "hasPreviousPage"]] }

def Cypher.Item.isParam : Item → Bool
  | .param _ => true
  | .list _ _ => false

/-- The program has one parameter, the number of films, and mentions none. -/
theorem opening_compiles :
    ∃ p, compile Stage.setup Stage.opening = .ok p ∧ p.params.keys = ["param3"] ∧
      p.items.any Item.isParam = false := by
  have hsome : (compile Stage.setup Stage.opening).toOption.any (fun p =>
      decide (p.params.keys = ["param3"] ∧ p.items.any Item.isParam = false)) = true := by
    decide +kernel
  obtain ⟨p, h, hkeys⟩ := exists_of_any hsome
  exact ⟨p, h, of_decide_eq_true hkeys⟩

theorem opening_unread :
    ∃ p o, compile Stage.setup Stage.opening = .ok p ∧ Stage.setup.plan Stage.opening = .ok o ∧
      (∃ unread : List String, unread.Nodup ∧ unread.length = o.idleBounds ∧
        ∀ x, x ∈ unread ↔ x ∈ p.params.keys ∧ .param x ∉ p.items) := by
  obtain ⟨p, h, _⟩ := opening_compiles
  obtain ⟨o, hplan, hunread, _⟩ := compile_unread Stage.setup Stage.opening p h
  exact ⟨p, o, h, hplan, hunread⟩

/-- A parameter is made for the number of films, and nothing reads it. -/
theorem opening_idle :
    ∃ p, compile Stage.setup Stage.opening = .ok p ∧
      ¬ ∀ x ∈ p.params.keys, .param x ∈ p.items := by
  obtain ⟨p, h, hkeys, hnone⟩ := opening_compiles
  refine ⟨p, h, fun hall => ?_⟩
  have hmem : .param "param3" ∈ p.items := hall "param3" (by simp [hkeys])
  exact absurd (List.any_eq_false.mp hnone _ hmem) (by simp [Item.isParam])

end GraphSelection
