import GraphSelection.Proofs.Mentioned.Basic

/-!
Accounts of conditions, scopes and windows. Whatever a condition makes a parameter for is in its
predicate or in a call before the predicate, also where a guard is dropped: the guard asks for the
parameter that the guarded value is.
-/
namespace GraphSelection.Program

open Cypher Plan

section Leaves

variable {ctx : Context}

theorem mentioned_collected (e : Expr) (isList : Bool) :
    mentioned (collected e isList).items = mentioned e.items := by
  unfold collected
  split <;> simp [Expr.items, Expr.itemsOf]

/-- A computed attribute needs no parameter. -/
theorem accounts_computedCall (a : Attribute) (result : String) :
    Accounts 0 ∅ Clause.mentions (computedCall ctx a result) := by
  unfold computedCall
  split
  · exact accounts_fail _
  · refine accounts_skip _ fun column => accounts_pure ?_
    simp [mentioned_collected, Clause.items, Column.named, Expr.itemsOfColumns, Expr.items]

theorem mentioned_reduce {value : Expr} (h : mentioned value.items = ∅) (f : Reduction) :
    mentioned (Clause.itemsOf (reduce value f).1) = ∅ ∧ mentioned (reduce value f).2.items = ∅ := by
  cases f <;> simp [reduce, Expr.items, Expr.itemsOf, Expr.itemsOfOrder, Expr.itemsOfOption, h]

theorem mentioned_measured {m : Measure} {node : String} {edge : Option String}
    {reduced : Reduced} (h : measured m node edge = .ok reduced) :
    mentioned (Clause.itemsOf reduced.1) = ∅ ∧ mentioned reduced.2.items = ∅ := by
  have hproperty : ∀ name key, mentioned (Expr.propertyOf name key).items = ∅ := by
    simp [Expr.propertyOf, Expr.items]
  unfold measured at h
  split at h
  · cases h
    simp [Expr.items, Expr.itemsOf]
  · cases h
    simp [Expr.items, Expr.itemsOf]
  · cases h
    exact mentioned_reduce (hproperty _ _) _
  · cases h
    exact mentioned_reduce (hproperty _ _) _
  · cases h

theorem accounts_typedParam (value : Doc) (kind : Option ScalarKind) :
    Accounts 0 ∅ Expr.mentions (typedParam value kind) := by
  refine (accounts_param value).last fun e => ?_
  unfold construct
  split <;> simp [Expr.items, Expr.itemsOf]

theorem accounts_typedListParam (value : Doc) (kind : Option ScalarKind) :
    Accounts 0 ∅ Expr.mentions (typedListParam value kind) := by
  refine (accounts_param value).last fun e => ?_
  unfold constructEach
  split <;> simp [Expr.items, Expr.itemsOf]

theorem mentioned_comparison (op : Comparison) (left right : Expr) :
    mentioned (comparison op left right).items = mentioned left.items ∪ mentioned right.items := by
  cases op <;> simp [comparison, Expr.items, Set.union_comm]

theorem accounts_aggregationCall (a : Aggregation) (result : String) :
    Accounts 0 ∅ Clause.mentions (aggregationCall ctx a result) := by
  refine accounts_skip _ fun edge => accounts_skip _ fun node => ?_
  refine accounts_fault fun reduced hreduced => ?_
  obtain ⟨hbefore, hvalue⟩ := mentioned_measured hreduced
  have hleft : mentioned (if a.measure.comparesLength then Expr.apply "size" [reduced.2]
      else reduced.2).items = ∅ := by
    split <;> simp [Expr.items, Expr.itemsOf, hvalue]
  refine (accounts_typedParam ..).last fun right => ?_
  simp [mentioned_comparison, hleft, hbefore, Expr.itemsOfOption]

end Leaves

section Conditions

variable {ctx : Context}

/-- What the guards of a side and the side itself mention. -/
def sideMentions (side : List Expr × Expr) : Set String :=
  mentioned (Expr.itemsOf side.1) ∪ mentioned side.2.items

theorem accounts_claimParam {m : List Expr × Expr → Set String} (value : Option Doc)
    (h : ∀ e : Expr, m ([.isNotNull e], e) = mentioned e.items) :
    Accounts 0 ∅ m (claimParam value) :=
  (accounts_param _).last fun e => by simp [h]

/-- The value that is compared mentions all that its guards mention. -/
theorem tallies_subjectExpr {m : List Expr × Expr → Set String} (subject : Subject)
    (hplain : ∀ e : Expr, mentioned e.items = ∅ → m ([], e) = ∅)
    (hclaim : ∀ e : Expr, m ([.isNotNull e], e) = mentioned e.items) :
    Tallies ∅ m (subjectExpr ctx subject) := by
  cases subject with
  | node a => exact tallies_pure (hplain _ (by simp [Expr.propertyOf, Expr.items]))
  | edge a =>
    have hedge : Tallies ∅ (fun _ => ∅) (liftM (liftM ctx.edge : Build String)) :=
      tallies_lift (accounts_lift fun _ _ => rfl)
    refine hedge.last fun edge => ?_
    rw [hplain _ (by simp [Expr.propertyOf, Expr.items]), Set.union_empty]
  | computed a =>
    refine (tallies_shared _ fun name => accounts_computedCall a name).last fun name => ?_
    rw [hplain _ (by simp [Expr.items]), Set.union_empty]
  | claim path value => exact tallies_lift (accounts_claimParam value hclaim)

theorem sideMentions_claim (e : Expr) : sideMentions ([.isNotNull e], e) = mentioned e.items := by
  simp [sideMentions, Expr.itemsOf, Expr.items]

theorem accounts_operandExpr (kind : Option ScalarKind) (op : Comparison) (operand : Operand) :
    Accounts 0 ∅ sideMentions (operandExpr kind op operand) := by
  have hplain : ∀ e : Expr, sideMentions ([], e) = ∅ ∪ mentioned e.items := by
    simp [sideMentions, Expr.itemsOf]
  cases operand with
  | literal value =>
    dsimp only [operandExpr]
    split
    · exact (accounts_typedListParam ..).last hplain
    · exact (accounts_typedParam ..).last hplain
  | claim path value => exact accounts_claimParam value sideMentions_claim

theorem mentioned_lowered (caseInsensitive : Bool) (e : Expr) :
    mentioned (lowered caseInsensitive e).items = mentioned e.items := by
  unfold lowered
  split <;> simp [Expr.items, Expr.itemsOf]

theorem tallies_comparePredicate (subject : Subject) (op : Comparison) (operand : Operand)
    (caseInsensitive : Bool) :
    Tallies ∅ Expr.mentions (comparePredicate ctx subject op operand caseInsensitive) := by
  have hsubject : Tallies ∅ sideMentions (subjectExpr ctx subject) :=
    tallies_subjectExpr subject (fun e he => by simp [sideMentions, Expr.itemsOf, he])
      sideMentions_claim
  refine hsubject.andThen fun left => ?_
  refine (tallies_lift (accounts_operandExpr ..)).last fun right => ?_
  simp only [Expr.mentions, mentions_getD, mentioned_allOf, itemsOf_append, mentioned_append,
    Expr.itemsOf, mentioned_nil, mentioned_comparison, mentioned_lowered, sideMentions,
    Set.empty_union, Set.union_empty]
  ac_rfl

theorem mentioned_narrowed (pattern : Pattern) (calls : List Clause) (predicate : Option Expr) :
    mentioned (Clause.itemsOf (narrowed pattern calls predicate)) =
      mentioned (Clause.itemsOf calls) ∪ mentioned (Expr.itemsOfOption predicate) := by
  unfold narrowed
  split
  next h => simp [List.isEmpty_iff.mp h]
  next => cases predicate <;> simp [Expr.itemsOfOption]

theorem mentioned_quantified (q : Quantifier) (pattern : Pattern) (calls : List Clause)
    (predicate : Option Expr) :
    mentioned (quantified q pattern calls predicate).items =
      mentioned (Clause.itemsOf calls) ∪ mentioned (Expr.itemsOfOption predicate) := by
  cases q <;> cases predicate <;>
    simp [quantified, Expr.items, Expr.itemsOf, mentioned_narrowed, Expr.equals, Expr.int,
      Expr.itemsOfOption]

mutual
theorem tallies_predicate (ctx : Context) (c : Condition) :
    Tallies ∅ Expr.mentions (Condition.predicate ctx c) := by
  match c with
  | .all items => exact (tallies_predicates ctx items).last fun es => by simp
  | .any items => exact (tallies_predicates ctx items).last fun es => by simp
  | .not inner => exact (tallies_predicate ctx inner).last fun e => by simp [Expr.items]
  | .compare subject op operand caseInsensitive => exact tallies_comparePredicate ..
  | .nullness subject isNull =>
    have hsubject : Tallies ∅ (fun side : List Expr × Expr => mentioned side.2.items)
        (subjectExpr ctx subject) :=
      tallies_subjectExpr subject (fun _ he => he) fun _ => rfl
    refine hsubject.last fun side => ?_
    split <;> simp [Expr.items]
  | .labels labels => exact tallies_pure (by simp [Expr.items])
  | .related relationship quantifier targets isComposite edgeCondition =>
    refine tallies_skip _ fun edge => tallies_skip _ fun node => ?_
    have hparts : ∀ parts : List Expr,
        Tallies (mentioned (Expr.itemsOf parts)) (fun es => mentioned (Expr.itemsOf es))
          (do return parts ++
            (← Condition.optionPredicate (ctx.enter node (some edge) ctx.result) edgeCondition)) :=
      fun parts => (tallies_optionPredicate _ edgeCondition
        (m := fun es => mentioned (Expr.itemsOf es)) (by simp [Expr.itemsOf])
        (by simp [Expr.itemsOf])).last fun own => by simp
    refine (tallies_lift (Tallies.gathered (m := fun es => mentioned (Expr.itemsOf es)) ?_)).last
      fun r => by simp [mentioned_quantified]
    split
    · refine (tallies_alternatives _ targets).andThen fun es => ?_
      simpa [Expr.itemsOf] using hparts [(Expr.anyOf es).getD (.bool false)]
    · exact (tallies_firstTarget _ targets).andThen fun es => by simpa using hparts es
  | .aggregation a =>
    refine (tallies_shared _ fun name => accounts_aggregationCall a name).last fun name => ?_
    simp [Expr.equals, Expr.bool, Expr.items]
  | .authenticated =>
    refine (tallies_lift (accounts_param _)).last fun e => ?_
    simp [Expr.equals, Expr.bool, Expr.items]
theorem tallies_predicates (ctx : Context) (cs : List Condition) :
    Tallies ∅ (fun es => mentioned (Expr.itemsOf es)) (Condition.predicates ctx cs) := by
  match cs with
  | [] => exact tallies_pure (by simp [Expr.itemsOf])
  | c :: rest =>
    refine (tallies_predicate ctx c).andThen fun e => ?_
    exact (tallies_predicates ctx rest).last fun es => by simp [Expr.itemsOf]
theorem tallies_alternatives (ctx : Context) (targets : List (Entity × Option Condition)) :
    Tallies ∅ (fun es => mentioned (Expr.itemsOf es)) (Condition.alternatives ctx targets) := by
  match targets with
  | [] => exact tallies_pure (by simp [Expr.itemsOf])
  | (entity, filter) :: rest =>
    refine (tallies_optionPredicate ctx filter (m := fun es => mentioned (Expr.itemsOf es))
      (by simp [Expr.itemsOf]) (by simp [Expr.itemsOf])).andThen fun own => ?_
    exact (tallies_alternatives ctx rest).last fun es => by simp [Expr.itemsOf, Expr.items]
theorem tallies_firstTarget (ctx : Context) (targets : List (Entity × Option Condition)) :
    Tallies ∅ (fun es => mentioned (Expr.itemsOf es)) (Condition.firstTarget ctx targets) := by
  match targets with
  | [] => exact tallies_pure (by simp [Expr.itemsOf])
  | (entity, filter) :: rest =>
    exact tallies_optionPredicate ctx filter (by simp [Expr.itemsOf]) (by simp [Expr.itemsOf])
theorem tallies_optionPredicate {m : List Expr → Set String} (ctx : Context)
    (filter : Option Condition) (hnone : m [] = ∅) (hsome : ∀ e, m [e] = mentioned e.items) :
    Tallies ∅ m (Condition.optionPredicate ctx filter) := by
  match filter with
  | none => exact tallies_pure hnone
  | some c => exact (tallies_predicate ctx c).last fun e => by simp [hsome]
end

theorem accounts_filteredMatch (pattern : Pattern) (filter : Option Condition) :
    Accounts 0 ∅ mentionsOf (filteredMatch pattern filter ctx) := by
  refine (tallies_optionPredicate ctx filter
    (m := fun es => mentioned (Expr.itemsOfOption es.head?)) ?_ ?_).gathered.last fun r => ?_
  · simp [Expr.itemsOfOption]
  · simp [Expr.itemsOfOption]
  · simp [mentioned_narrowed]

theorem accounts_validated (validations : List Condition) :
    Accounts 0 ∅ mentionsOf (validated ctx validations) := by
  have hparts : Accounts 0 ∅
      (fun r => mentioned (Clause.itemsOf r.1) ∪ mentioned (Expr.itemsOf r.2))
      (validationParts ctx validations) := by
    induction validations with
    | nil => exact accounts_pure (by simp [Expr.itemsOf])
    | cons c rest ih =>
      refine (tallies_predicate ctx c).gathered.andThen fun first => ih.last fun more => ?_
      simp only [mentionsOf, Expr.mentions, clauseItems_append, Expr.itemsOf, mentioned_append,
        Set.empty_union]
      ac_rfl
  refine hparts.last fun r => ?_
  cases hall : Expr.allOf r.2 with
  | none =>
    have hnone : mentioned (Expr.itemsOf r.2) = ∅ := by
      rw [← mentioned_allOf, hall, Expr.itemsOfOption, mentioned_nil]
    simp [hnone]
  | some e =>
    have hsome : mentioned (Expr.itemsOf r.2) = mentioned e.items := by
      rw [← mentioned_allOf, hall, Expr.itemsOfOption]
    simp [hsome, assertion, Expr.items, Expr.itemsOf, Expr.string, Expr.int]

end Conditions

section Scopes

variable {ctx : Context}

theorem accounts_scopeMatch (scope : Scope) : Accounts 0 ∅ mentionsOf (scopeMatch ctx scope) := by
  refine accounts_fault fun pattern _ => ?_
  refine (accounts_filteredMatch pattern scope.filter).andThen fun found => ?_
  exact (accounts_validated scope.validations).last fun checks => by simp

theorem accounts_distinctNodes (scope : Scope) :
    Accounts 0 ∅ mentionsOf (distinctNodes ctx scope) := by
  refine (accounts_scopeMatch scope).andThen fun clauses => ?_
  split
  · exact accounts_pure (by simp)
  · refine accounts_pure ?_
    simp [Clause.items, Expr.itemsOfColumns, Expr.itemsOfOrder, Expr.itemsOfOption, Column.var,
      Expr.items]

theorem accounts_importParent : Accounts 0 ∅ mentionsOf (importParent ctx) := by
  unfold importParent
  split
  · exact accounts_pure (by simp)
  · refine accounts_fault fun parent _ => accounts_pure ?_
    simp [Column.var, Expr.itemsOfColumns, Expr.items]

theorem accounts_measureCall (scope : Scope) (m : Measure) (result : String) :
    Accounts 0 ∅ Clause.mentions (measureCall ctx scope m result) := by
  refine accounts_fault fun imports _ => (accounts_scopeMatch scope).andThen fun found => ?_
  refine accounts_fault fun reduced hreduced => accounts_pure ?_
  simp [mentioned_measured hreduced]

/-- What calls and the entries that name their results mention. -/
def answerMentions (r : List Clause × List (String × Expr)) : Set String :=
  mentioned (Clause.itemsOf r.1) ∪ mentioned (Expr.itemsOfEntries r.2)

theorem answerMentions_nil : answerMentions ([], []) = ∅ := by
  simp [answerMentions, Expr.itemsOfEntries]

theorem answerMentions_cons (calls : List Clause) (key : String) (e : Expr)
    (r : List Clause × List (String × Expr)) :
    answerMentions (calls ++ r.1, (key, e) :: r.2) =
      mentioned (Clause.itemsOf calls) ∪ mentioned e.items ∪ answerMentions r := by
  simp only [answerMentions, clauseItems_append, mentioned_append, Expr.itemsOfEntries]
  ac_rfl

mutual
theorem accounts_aggregateEntry {call : Measure → String → Build Clause}
    (hcall : ∀ m name, Accounts 0 ∅ Clause.mentions (call m name)) (item : AggregateItem) :
    Accounts 0 ∅ (fun r => mentioned (Clause.itemsOf r.1) ∪ mentioned r.2.2.items)
      (aggregateEntry call item) := by
  match item with
  | .measure key m =>
    exact accounts_skip _ fun name => (hcall m name).last fun clause => by simp [Expr.items]
  | .group key items =>
    exact (accounts_aggregateEntries hcall items).last fun r => by
      simp [answerMentions, Expr.items]
  | .typename key typeName => exact accounts_pure (by simp [Expr.string, Expr.items])
theorem accounts_aggregateEntries {call : Measure → String → Build Clause}
    (hcall : ∀ m name, Accounts 0 ∅ Clause.mentions (call m name)) (items : List AggregateItem) :
    Accounts 0 ∅ answerMentions (aggregateEntries call items) := by
  match items with
  | [] => exact accounts_pure answerMentions_nil
  | item :: rest =>
    refine (accounts_aggregateEntry hcall item).andThen fun first => ?_
    refine (accounts_aggregateEntries hcall rest).last fun more => ?_
    rw [answerMentions_cons, Set.empty_union]
end

theorem accounts_aggregateClauses (a : Aggregate) :
    Accounts 0 ∅ mentionsOf (aggregateClauses ctx a) := by
  refine (accounts_aggregateEntries (accounts_measureCall a.scope) a.items).last fun r => ?_
  simp [answerMentions, Expr.items]

/-- A bound of a page is a parameter, which may be read or not. -/
theorem accounts_countParam (bound : Option Nat) (isRead : Bool) :
    Accounts (idleBound bound isRead) ∅
      (fun e => if isRead then mentioned (Expr.itemsOfOption e) else ∅) (countParam bound) := by
  cases bound with
  | none => exact accounts_pure (by simp [Expr.itemsOfOption])
  | some n =>
    cases isRead with
    | true => exact (accounts_param _).last fun e => by simp [Expr.itemsOfOption]
    | false => exact (accounts_idleParam _).last fun e => by simp

/-- What bounds mention. -/
def Bounds.mentions (b : Bounds) : Set String :=
  mentioned (Expr.itemsOfOption b.skip) ∪ mentioned (Expr.itemsOfOption b.limit)

/-- Those of the bounds that are read. -/
def Bounds.readMentions (readsSkip readsLimit : Bool) (b : Bounds) : Set String :=
  (if readsSkip then mentioned (Expr.itemsOfOption b.skip) else ∅) ∪
    if readsLimit then mentioned (Expr.itemsOfOption b.limit) else ∅

theorem accounts_boundsRead (page : Page) (readsSkip readsLimit : Bool) :
    Accounts (idleBound page.skip readsSkip + idleBound page.limit readsLimit) ∅
      (Bounds.readMentions readsSkip readsLimit) (bounds page) := by
  refine (accounts_countParam page.skip readsSkip).step fun skip => ?_
  exact (accounts_countParam page.limit readsLimit).last fun limit => by
    simp [Bounds.readMentions]

theorem accounts_bounds (page : Page) : Accounts 0 ∅ Bounds.mentions (bounds page) :=
  (accounts_boundsRead page true true).congr (by simp [idleBound]) rfl fun b => by
    simp [Bounds.readMentions, Bounds.mentions]

theorem mentions_isWhole {b : Bounds} (h : b.isWhole = true) : b.mentions = ∅ := by
  obtain ⟨skip, limit⟩ := b
  simp only [Bounds.isWhole, Bool.and_eq_true, Option.isNone_iff_eq_none] at h
  simp [Bounds.mentions, h, Expr.itemsOfOption]

theorem accounts_sortValues (sort : List SortKey) :
    Accounts 0 ∅ (fun r => mentioned (Clause.itemsOf r.1) ∪ mentioned (Expr.itemsOfOrder r.2))
      (sortValues ctx sort) := by
  induction sort with
  | nil => exact accounts_pure (by simp [Expr.itemsOfOrder])
  | cons key rest ih =>
    have hvalue : Accounts 0 ∅ (fun r => mentioned (Clause.itemsOf r.1) ∪ mentioned r.2.items)
        (sortValue ctx key) := by
      unfold sortValue
      split
      · exact accounts_pure (by simp [Expr.propertyOf, Expr.items])
      · refine accounts_fault fun edge _ => accounts_pure ?_
        simp [Expr.propertyOf, Expr.items]
      · refine accounts_skip _ fun name => (accounts_computedCall _ name).last fun call => ?_
        simp [Expr.items]
    refine hvalue.andThen fun first => ih.last fun more => ?_
    simp only [clauseItems_append, mentioned_append, Expr.itemsOfOrder, Set.empty_union]
    ac_rfl

theorem accounts_orderedWindow (sort : List SortKey) (b : Bounds) :
    Accounts 0 b.mentions mentionsOf (orderedWindow ctx sort b) := by
  unfold orderedWindow
  split
  next h =>
    rw [mentions_isWhole (Bool.and_eq_true .. |>.mp h).2]
    exact accounts_pure (by simp)
  next =>
    refine (accounts_sortValues sort).last fun r => ?_
    simp only [mentionsOf, clauseItems_append, clauseItems_cons, clauseItems_nil, mentioned_append,
      mentions_window, mentioned_nil, Set.union_empty, Bounds.mentions]
    ac_rfl

theorem accounts_arranged (sort : List SortKey) (page : Page) :
    Accounts 0 ∅ mentionsOf (arranged ctx sort page) := by
  unfold arranged
  split
  · exact accounts_pure (by simp)
  · exact (accounts_bounds page).bind fun b => accounts_orderedWindow sort b

end Scopes

end GraphSelection.Program
