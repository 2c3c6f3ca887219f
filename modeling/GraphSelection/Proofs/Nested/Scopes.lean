import GraphSelection.Proofs.Nested.Basic

/-!
The nesting of conditions, scopes and windows. One bound serves the expression of a condition and
the calls before it, and it is kept by a scope of the condition: the block around the scope takes
the level that the scope adds to the depth.
-/
namespace GraphSelection.Program

open Cypher Plan

section Leaves

variable {ctx : Context}

theorem nesting_collected (e : Expr) (isList : Bool) :
    (collected e isList).nesting = e.nesting := by
  unfold collected
  split <;> simp [Expr.nesting, Expr.nestingOf]

/-- The statement of a computed attribute stands in a call of its own inside the call. -/
theorem nesting_computedCall (a : Attribute) (result : String) :
    Ensures (fun c => c.nesting ≤ 2) (computedCall ctx a result) := by
  unfold computedCall
  split
  · exact ensures_fail _
  · refine ensures_skip _ fun column => ensures_pure ?_
    simp [nesting_collected, Expr.nestingOfColumns, Column.named, Expr.nesting, Clause.nesting]

theorem nesting_reduce {value : Expr} (h : value.nesting = 0) (f : Reduction) :
    Clause.nestingOf (reduce value f).1 = 0 ∧ (reduce value f).2.nesting = 0 := by
  cases f <;> simp [reduce, Expr.nesting, Expr.nestingOf, Expr.nestingOfOrder,
    Expr.nestingOfOption, h]

theorem nesting_measured {m : Measure} {node : String} {edge : Option String} {reduced : Reduced}
    (h : measured m node edge = .ok reduced) :
    Clause.nestingOf reduced.1 = 0 ∧ reduced.2.nesting = 0 := by
  unfold measured at h
  split at h
  · cases h
    exact ⟨rfl, rfl⟩
  · cases h
    exact ⟨rfl, rfl⟩
  · cases h
    exact nesting_reduce rfl _
  · cases h
    exact nesting_reduce rfl _
  · cases h

/-- A parameter holds no block. -/
theorem nesting_param (value : Doc) : Ensures (fun e => e.nesting = 0) (param value) :=
  ensures_param (fun _ => rfl) value

theorem nesting_typedParam (value : Doc) (kind : Option ScalarKind) :
    Ensures (fun e => e.nesting = 0) (typedParam value kind) := by
  refine (nesting_param value).bind fun e he => ensures_pure ?_
  unfold construct
  split <;> simp [Expr.nesting, Expr.nestingOf, he]

theorem nesting_typedListParam (value : Doc) (kind : Option ScalarKind) :
    Ensures (fun e => e.nesting = 0) (typedListParam value kind) := by
  refine (nesting_param value).bind fun e he => ensures_pure ?_
  unfold constructEach
  split <;> simp [Expr.nesting, Expr.nestingOf, he]

theorem nesting_comparison (op : Comparison) (left right : Expr) :
    (comparison op left right).nesting = max left.nesting right.nesting := by
  cases op <;> simp [comparison, Expr.nesting, Nat.max_comm]

theorem nesting_aggregationCall (a : Aggregation) (result : String) :
    Ensures (fun c => c.nesting ≤ 1) (aggregationCall ctx a result) := by
  refine ensures_skip _ fun edge => ensures_skip _ fun node => ?_
  refine (ensures_lift fun reduced h => nesting_measured h).bind fun reduced hreduced => ?_
  refine (nesting_typedParam ..).bind fun right hright => ensures_pure ?_
  have hleft : (if a.measure.comparesLength then Expr.apply "size" [reduced.2]
      else reduced.2).nesting = 0 := by
    split <;> simp [Expr.nesting, Expr.nestingOf, hreduced.2]
  simp [nesting_comparison, hleft, hright, hreduced.1, Expr.nestingOfOption]

end Leaves

section Conditions

variable {ctx : Context} {n : Nat}

/-- A side of a comparison with its guards, all of them without blocks. -/
def Blockless (side : List Expr × Expr) : Prop :=
  (∀ g ∈ side.1, g.nesting = 0) ∧ side.2.nesting = 0

theorem blockless_unguarded {e : Expr} (h : e.nesting = 0) : Blockless ([], e) := ⟨by simp, h⟩

theorem nesting_claimParam (value : Option Doc) : Ensures Blockless (claimParam value) := by
  refine (nesting_param _).bind fun e he => ensures_pure ⟨?_, he⟩
  simp [Expr.nesting, he]

theorem nests_subjectExpr (subject : Subject) :
    Judges (·.nesting ≤ n + 2) Blockless (subjectExpr ctx subject) := by
  cases subject with
  | node a => exact judges_pure (blockless_unguarded rfl)
  | edge a =>
    exact judges_skip (liftM ctx.edge : Build String) fun edge =>
      judges_pure (blockless_unguarded rfl)
  | computed a =>
    have hcall : ∀ name, Ensures (fun c => c.nesting ≤ n + 2) (computedCall ctx a name) :=
      fun name => (nesting_computedCall a name).mono fun _ h => Nat.le_trans h (Nat.le_add_left 2 n)
    exact (judges_shared _ hcall).bind fun name _ => judges_pure (blockless_unguarded rfl)
  | claim path value => exact judges_lift (nesting_claimParam value)

theorem nesting_operandExpr (kind : Option ScalarKind) (op : Comparison) (operand : Operand) :
    Ensures Blockless (operandExpr kind op operand) := by
  cases operand with
  | literal value =>
    dsimp only [operandExpr]
    split
    · exact (nesting_typedListParam ..).bind fun e he => ensures_pure (blockless_unguarded he)
    · exact (nesting_typedParam ..).bind fun e he => ensures_pure (blockless_unguarded he)
  | claim path value => exact nesting_claimParam value

theorem nesting_lowered (caseInsensitive : Bool) (e : Expr) :
    (lowered caseInsensitive e).nesting = e.nesting := by
  unfold lowered
  split <;> simp [Expr.nesting, Expr.nestingOf]

theorem nests_comparePredicate (subject : Subject) (op : Comparison) (operand : Operand)
    (caseInsensitive : Bool) :
    Judges (·.nesting ≤ n + 2) (fun e => e.nesting ≤ n + 2)
      (comparePredicate ctx subject op operand caseInsensitive) := by
  refine (nests_subjectExpr subject).bind fun left hleft => ?_
  refine (judges_lift (nesting_operandExpr ..)).bind fun right hright => judges_pure ?_
  refine nesting_partwise.getD (nesting_partwise.allOf fun e he => ?_) true
  simp only [List.mem_append, List.mem_singleton] at he
  rcases he with (he | he) | rfl
  · simp [hleft.1 e he]
  · simp [hright.1 e he]
  · simp [nesting_comparison, nesting_lowered, hleft.2, hright.2]

theorem nesting_narrowed (pattern : Pattern) {calls : List Clause}
    (hcalls : ∀ c ∈ calls, c.nesting ≤ n) {predicate : Option Expr}
    (h : ∀ p ∈ predicate, p.nesting ≤ n) :
    Clause.nestingOf (narrowed pattern calls predicate) ≤ n := by
  have hbefore : Clause.nestingOf calls ≤ n := clauses_nesting_le.mpr hcalls
  unfold narrowed
  split
  · simpa using nestingOfOption_le.mpr h
  · cases predicate with
    | none => simpa [Expr.nestingOfOption] using hbefore
    | some p =>
      have hp : p.nesting ≤ n := h p rfl
      simp only [List.cons_append, nestingOf_cons, nesting_find, Expr.nestingOfOption,
        nestingOf_append, Option.map_some, Option.toList_some, nesting_keep, nestingOf_nil]
      omega

/-- The block of a scope is the level that the scope adds. -/
theorem nesting_quantified (q : Quantifier) (pattern : Pattern) {calls : List Clause}
    (hcalls : ∀ c ∈ calls, c.nesting ≤ n) {predicate : Option Expr}
    (h : ∀ p ∈ predicate, p.nesting ≤ n) :
    (quantified q pattern calls predicate).nesting ≤ n + 1 := by
  have hbody : ∀ predicate : Option Expr, (∀ p ∈ predicate, p.nesting ≤ n) →
      Clause.nestingOf (narrowed pattern calls predicate) + 1 ≤ n + 1 :=
    fun _ hp => Nat.succ_le_succ (nesting_narrowed pattern hcalls hp)
  cases q with
  | atLeastOne => exact hbody predicate h
  | noneAtAll => exact hbody predicate h
  | exactlyOne =>
    refine Nat.max_le.mpr ⟨hbody predicate h, ?_⟩
    simp [Expr.int, Expr.nesting]
  | every =>
    cases predicate with
    | none => exact hbody none h
    | some p =>
      have hnot : ∀ p' ∈ some (Expr.not p), p'.nesting ≤ n := by
        rintro _ ⟨⟩
        exact h p rfl
      refine nestingOf_le.mpr fun e he => ?_
      simp only [List.mem_cons, List.not_mem_nil, or_false] at he
      rcases he with rfl | rfl
      · exact hbody (some p) h
      · exact hbody (some (.not p)) hnot

mutual
theorem nests_predicate {n : Nat} (ctx : Context) (c : Condition) (h : c.outline.depth ≤ n) :
    Judges (·.nesting ≤ n + 2) (fun e => e.nesting ≤ n + 2) (Condition.predicate ctx c) := by
  match c with
  | .all items =>
    refine (nests_predicates ctx items (by simpa [Condition.outline, Outline.depth] using h)).bind
      fun es hes => judges_pure ?_
    exact nesting_partwise.getD (nesting_partwise.allOf hes) true
  | .any items =>
    refine (nests_predicates ctx items (by simpa [Condition.outline, Outline.depth] using h)).bind
      fun es hes => judges_pure ?_
    exact nesting_partwise.getD (nesting_partwise.anyOf hes) false
  | .not inner =>
    refine (nests_predicate ctx inner ?_).bind fun e he => judges_pure he
    simpa [Condition.outline, Outline.depth, Outline.depthOf] using h
  | .compare subject op operand caseInsensitive => exact nests_comparePredicate ..
  | .nullness subject isNull =>
    refine (nests_subjectExpr subject).bind fun side hside => judges_pure ?_
    split <;> simp [Expr.nesting, hside.2]
  | .labels labels => exact judges_pure (Nat.zero_le _)
  | .related relationship quantifier targets isComposite edgeCondition =>
    -- the scope is one level of the depth, so its members have one level less
    obtain ⟨m, rfl⟩ : ∃ m, n = m + 1 := by
      refine ⟨n - 1, ?_⟩
      simp only [Condition.outline, Outline.depth, if_true] at h
      omega
    simp only [Condition.outline, Outline.depth, if_true, Outline.depthOf_append] at h
    have htargets : Outline.depthOf (Condition.targetOutlines targets) ≤ m := by omega
    have hedge : Outline.depthOf (Condition.optionOutline edgeCondition) ≤ m := by omega
    refine judges_skip _ fun edge => judges_skip _ fun node => ?_
    have hparts := judges_parts nesting_partwise isComposite
      (nests_alternatives (ctx.enter node (some edge) ctx.result) targets htargets)
      (nests_firstTarget _ targets htargets) (nests_optionPredicate _ edgeCondition hedge)
    exact (judges_lift hparts.gathered).bind fun r hr =>
      judges_pure (nesting_quantified _ _ hr.2 (nesting_partwise.allOf hr.1))
  | .aggregation a =>
    have hcall : ∀ name, Ensures (fun c => c.nesting ≤ n + 2) (aggregationCall ctx a name) :=
      fun name => (nesting_aggregationCall a name).mono fun _ h => by omega
    refine (judges_shared _ hcall).bind fun name _ => judges_pure ?_
    simp [Expr.equals, Expr.bool, Expr.nesting]
  | .authenticated =>
    refine (judges_lift (nesting_param _)).bind fun e he => judges_pure ?_
    simp [Expr.equals, Expr.bool, Expr.nesting, he]
theorem nests_predicates {n : Nat} (ctx : Context) (cs : List Condition)
    (h : Outline.depthOf (Condition.outlines cs) ≤ n) :
    Judges (·.nesting ≤ n + 2) (fun es => ∀ e ∈ es, e.nesting ≤ n + 2)
      (Condition.predicates ctx cs) := by
  match cs with
  | [] => exact judges_pure (by simp)
  | c :: rest =>
    simp only [Condition.outlines, Outline.depthOf, Nat.max_le] at h
    refine (nests_predicate ctx c h.1).bind fun e he => ?_
    exact (nests_predicates ctx rest h.2).bind fun es hes =>
      judges_pure (List.forall_mem_cons.mpr ⟨he, hes⟩)
theorem nests_alternatives {n : Nat} (ctx : Context)
    (targets : List (Entity × Option Condition))
    (h : Outline.depthOf (Condition.targetOutlines targets) ≤ n) :
    Judges (·.nesting ≤ n + 2) (fun es => ∀ e ∈ es, e.nesting ≤ n + 2)
      (Condition.alternatives ctx targets) := by
  match targets with
  | [] => exact judges_pure (by simp)
  | (entity, filter) :: rest =>
    simp only [Condition.targetOutlines, Outline.depthOf_append, Nat.max_le] at h
    refine (nests_optionPredicate ctx filter h.1).bind fun own hown => ?_
    refine (nests_alternatives ctx rest h.2).bind fun es hes => judges_pure ?_
    refine List.forall_mem_append.mpr ⟨fun e he => ?_, hes⟩
    refine nesting_partwise.allOf ?_ e (Option.mem_toList.mp he)
    exact List.forall_mem_cons.mpr ⟨Nat.zero_le _, hown⟩
theorem nests_firstTarget {n : Nat} (ctx : Context)
    (targets : List (Entity × Option Condition))
    (h : Outline.depthOf (Condition.targetOutlines targets) ≤ n) :
    Judges (·.nesting ≤ n + 2) (fun es => ∀ e ∈ es, e.nesting ≤ n + 2)
      (Condition.firstTarget ctx targets) := by
  match targets with
  | [] => exact judges_pure (by simp)
  | (entity, filter) :: rest =>
    simp only [Condition.targetOutlines, Outline.depthOf_append, Nat.max_le] at h
    exact nests_optionPredicate ctx filter h.1
theorem nests_optionPredicate {n : Nat} (ctx : Context) (filter : Option Condition)
    (h : Outline.depthOf (Condition.optionOutline filter) ≤ n) :
    Judges (·.nesting ≤ n + 2) (fun es => ∀ e ∈ es, e.nesting ≤ n + 2)
      (Condition.optionPredicate ctx filter) := by
  match filter with
  | none => exact judges_pure (by simp)
  | some c =>
    simp only [Condition.optionOutline, Outline.depthOf, Nat.max_le] at h
    exact (nests_predicate ctx c h.1).bind fun e he =>
      judges_pure (List.forall_mem_singleton.mpr he)
end

theorem nesting_filteredMatch (pattern : Pattern) {filter : Option Condition}
    (h : Outline.depthOf (Condition.optionOutline filter) ≤ n) :
    Ensures (fun cs => Clause.nestingOf cs ≤ n + 2) (filteredMatch pattern filter ctx) := by
  refine (nests_optionPredicate ctx filter h).gathered.bind fun r hr => ensures_pure ?_
  exact nesting_narrowed pattern hr.2 fun p hp => hr.1 p (List.mem_of_mem_head? hp)

theorem nesting_validated {validations : List Condition}
    (h : Outline.depthOf (validationOutlines validations) ≤ n) :
    Ensures (fun cs => Clause.nestingOf cs ≤ n + 2) (validated ctx validations) := by
  rw [depthOf_validationOutlines] at h
  have hparts := ensures_validationParts nesting_partwise fun c hc => nests_predicate ctx c (h c hc)
  refine hparts.bind fun r hr => ensures_pure ?_
  rw [nestingOf_append]
  refine Nat.max_le.mpr ⟨clauses_nesting_le.mpr hr.1, ?_⟩
  cases hpredicate : Expr.allOf r.2 with
  | none => exact Nat.zero_le _
  | some e =>
    have he : e.nesting ≤ n + 2 := hr.2 e hpredicate
    simpa [assertion, Expr.nesting, Expr.nestingOf, Expr.string, Expr.int] using he

end Conditions

section Scopes

variable {ctx : Context} {n : Nat}

/-- The filter and the validations of a scope are at most so deep. -/
structure Shallow (n : Nat) (scope : Scope) : Prop where
  filter : Outline.depthOf (Condition.optionOutline scope.filter) ≤ n
  validations : Outline.depthOf (validationOutlines scope.validations) ≤ n

theorem nesting_scopeMatch {scope : Scope} (h : Shallow n scope) :
    Ensures (fun cs => Clause.nestingOf cs ≤ n + 2) (scopeMatch ctx scope) := by
  refine ensures_skip _ fun pattern => ?_
  refine (nesting_filteredMatch pattern h.filter).bind fun found hfound => ?_
  refine (nesting_validated h.validations).bind fun checks hchecks => ensures_pure ?_
  rw [nestingOf_append]
  exact Nat.max_le.mpr ⟨hfound, hchecks⟩

theorem nesting_distinctNodes {scope : Scope} (h : Shallow n scope) :
    Ensures (fun cs => Clause.nestingOf cs ≤ n + 2) (distinctNodes ctx scope) := by
  refine (nesting_scopeMatch h).bind fun clauses hclauses => ?_
  split
  · exact ensures_pure hclauses
  · refine ensures_pure ?_
    simpa [Clause.nesting, Expr.nestingOfColumns, Expr.nestingOfOrder, Expr.nestingOfOption,
      Column.var, Expr.nesting] using hclauses

theorem nesting_importParent : Ensures (fun cs => Clause.nestingOf cs = 0) (importParent ctx) := by
  unfold importParent
  split
  · exact ensures_pure rfl
  · refine ensures_skip _ fun parent => ensures_pure ?_
    simp [Expr.nestingOfColumns, Column.var, Expr.nesting]

/-- A measure matches its scope in a call of its own. -/
theorem nesting_measureCall {scope : Scope} (h : Shallow n scope) (m : Measure) (result : String) :
    Ensures (fun c => c.nesting ≤ n + 3) (measureCall ctx scope m result) := by
  refine ensures_skip _ fun imports => (nesting_scopeMatch h).bind fun found hfound => ?_
  refine (ensures_lift fun reduced h => nesting_measured h).bind fun reduced hreduced => ?_
  exact ensures_pure (by simpa [hreduced] using hfound)

/-- Calls within a bound, with the entries that name their results. -/
def Named (k : Nat) (r : List Clause × List (String × Expr)) : Prop :=
  Clause.nestingOf r.1 ≤ k ∧ ∀ entry ∈ r.2, entry.2.nesting = 0

theorem nesting_map {entries : List (String × Expr)} (h : ∀ entry ∈ entries, entry.2.nesting = 0) :
    (Expr.map entries).nesting = 0 :=
  Nat.le_zero.mp (nestingOfEntries_le.mpr fun entry hentry => Nat.le_of_eq (h entry hentry))

mutual
theorem nesting_aggregateEntry {k : Nat} {call : Measure → String → Build Clause}
    (hcall : ∀ m name, Ensures (fun c => c.nesting ≤ k) (call m name)) (item : AggregateItem) :
    Ensures (fun r => Clause.nestingOf r.1 ≤ k ∧ r.2.2.nesting = 0) (aggregateEntry call item) := by
  match item with
  | .measure key m =>
    refine ensures_skip _ fun name => (hcall m name).bind fun clause hclause => ensures_pure ?_
    exact ⟨by simpa using hclause, rfl⟩
  | .group key items =>
    refine (nesting_aggregateEntries hcall items).bind fun r hr => ensures_pure ?_
    exact ⟨hr.1, nesting_map hr.2⟩
  | .typename key typeName => exact ensures_pure ⟨Nat.zero_le _, rfl⟩
theorem nesting_aggregateEntries {k : Nat} {call : Measure → String → Build Clause}
    (hcall : ∀ m name, Ensures (fun c => c.nesting ≤ k) (call m name))
    (items : List AggregateItem) : Ensures (Named k) (aggregateEntries call items) := by
  match items with
  | [] => exact ensures_pure ⟨Nat.zero_le _, by simp⟩
  | item :: rest =>
    refine (nesting_aggregateEntry hcall item).bind fun first hfirst => ?_
    refine (nesting_aggregateEntries hcall rest).bind fun more hmore => ensures_pure ⟨?_, ?_⟩
    · rw [nestingOf_append]
      exact Nat.max_le.mpr ⟨hfirst.1, hmore.1⟩
    · exact List.forall_mem_cons.mpr ⟨hfirst.2, hmore.2⟩
end

theorem nesting_aggregateClauses {a : Aggregate} (h : Shallow n a.scope) :
    Ensures (fun cs => Clause.nestingOf cs ≤ n + 3) (aggregateClauses ctx a) := by
  refine (nesting_aggregateEntries (nesting_measureCall h) a.items).bind fun r hr => ?_
  refine ensures_pure ?_
  simpa [nesting_map hr.2] using hr.1

/-- Bounds are parameters, so they hold no block. -/
theorem nestingOfOption_bound {e : Option Expr} (h : ∀ p ∈ e, p.nesting = 0) :
    Expr.nestingOfOption e = 0 :=
  Nat.le_zero.mp (nestingOfOption_le.mpr fun p hp => Nat.le_of_eq (h p hp))

theorem nesting_bounds (page : Page) : Ensures (Bounds.All (·.nesting = 0)) (bounds page) :=
  ensures_bounds (fun _ => rfl) page

theorem nesting_sortValues (sort : List SortKey) :
    Ensures (fun r => Clause.nestingOf r.1 ≤ 2 ∧ ∀ key ∈ r.2, key.expression.nesting = 0)
      (sortValues ctx sort) := by
  induction sort with
  | nil => exact ensures_pure ⟨Nat.zero_le _, by simp⟩
  | cons key rest ih =>
    have hvalue : Ensures (fun r => Clause.nestingOf r.1 ≤ 2 ∧ r.2.nesting = 0)
        (sortValue ctx key) := by
      unfold sortValue
      split
      · exact ensures_pure ⟨Nat.zero_le _, rfl⟩
      · exact ensures_skip _ fun edge => ensures_pure ⟨Nat.zero_le _, rfl⟩
      · refine ensures_skip _ fun name => (nesting_computedCall _ name).bind fun call hcall => ?_
        exact ensures_pure ⟨by simpa using hcall, rfl⟩
    refine hvalue.bind fun first hfirst => ih.bind fun more hmore => ensures_pure ⟨?_, ?_⟩
    · rw [nestingOf_append]
      exact Nat.max_le.mpr ⟨hfirst.1, hmore.1⟩
    · exact List.forall_mem_cons.mpr ⟨hfirst.2, hmore.2⟩

theorem nesting_orderedWindow (sort : List SortKey) {b : Bounds} (hb : b.All (·.nesting = 0)) :
    Ensures (fun cs => Clause.nestingOf cs ≤ 2) (orderedWindow ctx sort b) := by
  unfold orderedWindow
  split
  · exact ensures_pure (Nat.zero_le _)
  · refine (nesting_sortValues sort).bind fun r hr => ensures_pure ?_
    have horder : Expr.nestingOfOrder r.2 = 0 :=
      Nat.le_zero.mp (nestingOfOrder_le.mpr fun key hkey => Nat.le_of_eq (hr.2 key hkey))
    simpa [horder, nestingOfOption_bound hb.skip, nestingOfOption_bound hb.limit] using hr.1

theorem nesting_arranged (sort : List SortKey) (page : Page) :
    Ensures (fun cs => Clause.nestingOf cs ≤ 2) (arranged ctx sort page) := by
  unfold arranged
  split
  · exact ensures_pure (Nat.zero_le _)
  · exact (nesting_bounds page).bind fun b hb => nesting_orderedWindow sort hb

end Scopes

end GraphSelection.Program
