import GraphSelection.Proofs.Ensured
import GraphSelection.Proofs.Rows.Basic

/-!
Rows of conditions, scopes and windows. Whatever a predicate calls before it stands returns one row,
a computed attribute because its values are collected and a measure because it is an aggregate, and
the validations of a scope let every row through.
-/
namespace GraphSelection.Program

open Cypher Plan

section Leaves

variable {ctx : Context}

theorem grain_collected (e : Expr) (isList : Bool) : (collected e isList).grain = .aggregate := by
  unfold collected
  split <;> rfl

theorem calls_collected {e : Expr} (h : e.calls = []) (isList : Bool) :
    (collected e isList).calls = [] := by
  unfold collected
  split <;> simp [Expr.calls, Expr.callsOf, h]

theorem singleCall_of_gathers {imports : List String} {body : List Clause} (hrows : Gathers body)
    (hcalls : Steady body) : SingleCall (.call imports body) :=
  ⟨imports, body, rfl, hrows.oneRow, hcalls.body⟩

/-- The values of a computed attribute are collected, however many its statement returns. -/
theorem ensures_computedCall (a : Attribute) (result : String) :
    Ensures SingleCall (computedCall ctx a result) := by
  unfold computedCall
  split
  · exact ensures_fail _
  · rename_i computation _
    refine ensures_skip _ fun column => ensures_pure ?_
    have hend : Gathers [.give (collected (.var column) a.isList) result] :=
      gathers_give (grain_collected ..) result
    have hcolumn : Steady [.carryOnly [Column.named (.var computation.column) column]] :=
      steady_of_callless rfl
    have hvalue : Steady [.give (collected (.var column) a.isList) result] :=
      steady_give (calls_collected rfl _) result
    exact ⟨_, _, rfl, (hend.after [_, _]).oneRow, steadyBody_statement (hcolumn.append hvalue)⟩

theorem reduce_ok {value : Expr} (h : value.calls = []) (f : Reduction) :
    Steady (reduce value f).1 ∧ (reduce value f).2.grain = .aggregate ∧
      (reduce value f).2.calls = [] := by
  have hwindow : Steady [.window [⟨.apply "size" [value], true⟩] none none] := by
    refine steady_of_callless ?_
    simp [Clause.window, Clause.calls, Expr.callsOfColumns, Expr.callsOfOrder, Expr.callsOfOption,
      Column.star, Expr.calls, Expr.callsOf, h]
  cases f with
  | longest => exact ⟨hwindow, rfl, by simp [reduce, Expr.calls, Expr.callsOf, h]⟩
  | shortest => exact ⟨hwindow, rfl, by simp [reduce, Expr.calls, Expr.callsOf, h]⟩
  | _ => exact ⟨steady_nil, rfl, by simp [reduce, Expr.calls, Expr.callsOf, h]⟩

/-- A measure is an aggregate. -/
theorem measured_aggregate {m : Measure} {node : String} {edge : Option String}
    {reduced : Reduced} (h : measured m node edge = .ok reduced) :
    Steady reduced.1 ∧ reduced.2.grain = .aggregate ∧ reduced.2.calls = [] := by
  unfold measured at h
  split at h
  · cases h
    exact ⟨steady_nil, rfl, rfl⟩
  · cases h
    exact ⟨steady_nil, rfl, rfl⟩
  · cases h
    exact reduce_ok rfl _
  · cases h
    exact reduce_ok rfl _
  · cases h

theorem simple_apply {function : String} (hplain : aggregators.contains function = false)
    {e : Expr} (h : e.Simple) : (Expr.apply function [e]).Simple := by
  constructor
  · rw [Expr.grain, hplain, if_neg Bool.false_ne_true, Expr.grainOf, Expr.grainOf,
      Grain.isPlain_join, h.grain]
    rfl
  · rw [Expr.calls, Expr.callsOf, Expr.callsOf, h.calls, List.append_nil]

theorem constructor_plain {kind : ScalarKind} {function : String}
    (h : kind.constructor? = some function) : aggregators.contains function = false := by
  cases kind <;> simp_all [ScalarKind.constructor?, aggregators] <;> subst h <;> decide

theorem calls_construct {e : Expr} (h : e.calls = []) (kind : Option ScalarKind) :
    (construct kind e).calls = [] := by
  unfold construct
  split
  · simp [Expr.calls, Expr.callsOf, h]
  · exact h

/-- A parameter stays a constant under the constructor of its kind. -/
theorem grain_construct (name : String) (kind : Option ScalarKind) :
    (construct kind (.param name)).grain = .constant := by
  unfold construct
  split
  · rename_i function hfunction
    obtain ⟨kind, _, hkind⟩ := Option.bind_eq_some_iff.mp hfunction
    have hplain := constructor_plain hkind
    simp only [Expr.grain, hplain, Expr.grainOf, Grain.join]
    rfl
  · rfl

theorem ensures_typedParam (value : Doc) (kind : Option ScalarKind) :
    Ensures (fun e => e.grain = .constant ∧ e.calls = []) (typedParam value kind) := by
  constructor
  intro s e t hrun
  simp only [typedParam, bind_ok, param_ok, pure_ok] at hrun
  obtain ⟨_, _, ⟨rfl, _⟩, rfl, _⟩ := hrun
  exact ⟨grain_construct .., calls_construct rfl _⟩

theorem ensures_typedListParam (value : Doc) (kind : Option ScalarKind) :
    Ensures (fun e => e.calls = []) (typedListParam value kind) := by
  refine (ensures_param simple_param value).bind fun e he => ensures_pure ?_
  unfold constructEach
  split
  · simp [Expr.calls, Expr.callsOf, he.calls]
  · exact he.calls

theorem comparison_ok {left right : Expr} (op : Comparison) (hleft : left.calls = [])
    (hright : right.calls = []) :
    (comparison op left right).calls = [] ∧
      (left.grain = .aggregate → right.grain = .constant →
        (comparison op left right).grain = .aggregate) := by
  constructor
  · cases op <;> simp [comparison, Expr.calls, hleft, hright]
  · intro haggregate hconstant
    cases op <;> simp [comparison, Expr.grain, haggregate, hconstant, Grain.join]

/-- The measure of an aggregation and the value it is compared with leave one row. -/
theorem ensures_aggregationCall (a : Aggregation) (result : String) :
    Ensures SingleCall (aggregationCall ctx a result) := by
  refine ensures_skip _ fun edge => ensures_skip _ fun node => ?_
  refine (ensures_lift fun reduced h => measured_aggregate h).bind fun reduced hreduced => ?_
  obtain ⟨hbefore, hgrain, hcalls⟩ := hreduced
  refine (ensures_typedParam ..).bind fun right hright => ensures_pure ?_
  have hleft : ∀ left : Expr, left = (if a.measure.comparesLength then .apply "size" [reduced.2]
      else reduced.2) → left.grain = .aggregate ∧ left.calls = [] := by
    rintro left rfl
    split
    · constructor
      · simp [Expr.grain, aggregators, Expr.grainOf, hgrain, Grain.join]
      · simp [Expr.calls, Expr.callsOf, hcalls]
    · exact ⟨hgrain, hcalls⟩
  obtain ⟨hleftGrain, hleftCalls⟩ := hleft _ rfl
  obtain ⟨hcompared, haggregate⟩ := comparison_ok a.op hleftCalls hright.2
  have hend : Gathers [.give (comparison a.op _ right) result] :=
    gathers_give (haggregate hleftGrain hright.1) result
  refine singleCall_of_gathers (hend.after _) ?_
  refine Steady.append ?_ (steady_give hcompared result)
  exact (steady_match _).append hbefore

end Leaves

section Conditions

variable {ctx : Context}

/-- A side of a comparison with its guards, none of which calls anything. -/
def Callless (side : List Expr × Expr) : Prop := (∀ g ∈ side.1, g.calls = []) ∧ side.2.calls = []

theorem ensures_claimParam (value : Option Doc) : Ensures Callless (claimParam value) := by
  refine (ensures_param simple_param _).bind fun e he => ensures_pure ⟨fun g hg => ?_, he.calls⟩
  rw [List.mem_singleton] at hg
  rw [hg, Expr.calls, he.calls]

theorem steady_subjectExpr (subject : Subject) :
    Judges SingleCall Callless (subjectExpr ctx subject) := by
  have hplain : ∀ e : Expr, e.calls = [] → Callless ([], e) :=
    fun e he => ⟨fun g hg => absurd hg List.not_mem_nil, he⟩
  cases subject with
  | node a => exact judges_pure (hplain _ rfl)
  | edge a =>
    exact judges_skip (liftM ctx.edge : Build String) fun edge => judges_pure (hplain _ rfl)
  | computed a =>
    refine (judges_shared _ fun name => ensures_computedCall a name).bind fun name _ => ?_
    exact judges_pure (hplain _ rfl)
  | claim path value => exact judges_lift (ensures_claimParam value)

theorem ensures_operandExpr (kind : Option ScalarKind) (op : Comparison) (operand : Operand) :
    Ensures Callless (operandExpr kind op operand) := by
  cases operand with
  | literal value =>
    dsimp only [operandExpr]
    split
    · refine (ensures_typedListParam ..).bind fun e he => ensures_pure ?_
      exact ⟨fun g hg => absurd hg List.not_mem_nil, he⟩
    · refine (ensures_typedParam ..).bind fun e he => ensures_pure ?_
      exact ⟨fun g hg => absurd hg List.not_mem_nil, he.2⟩
  | claim path value => exact ensures_claimParam value

theorem calls_lowered {e : Expr} (h : e.calls = []) (caseInsensitive : Bool) :
    (lowered caseInsensitive e).calls = [] := by
  unfold lowered
  split
  · simp [Expr.calls, Expr.callsOf, h]
  · exact h

theorem steady_comparePredicate (subject : Subject) (op : Comparison) (operand : Operand)
    (caseInsensitive : Bool) :
    Judges SingleCall Expr.Steady (comparePredicate ctx subject op operand caseInsensitive) := by
  refine (steady_subjectExpr subject).bind fun left hleft => ?_
  refine (judges_lift (ensures_operandExpr ..)).bind fun right hright => judges_pure ?_
  have htest := (comparison_ok op (calls_lowered hleft.2 caseInsensitive)
    (calls_lowered hright.2 caseInsensitive)).1
  refine steady_partwise.getD (steady_partwise.allOf fun e he => ?_) true
  rcases List.mem_append.mp he with he | he
  · rcases List.mem_append.mp he with he | he
    · exact steady_of_calls_nil (hleft.1 e he)
    · exact steady_of_calls_nil (hright.1 e he)
  · rw [List.mem_singleton] at he
    exact he ▸ steady_of_calls_nil htest

theorem steady_narrowed (pattern : Pattern) {calls : List Clause} (hcalls : SingleCalls calls)
    {predicate : Option Expr} (h : ∀ p ∈ predicate, p.Steady) :
    Steady (narrowed pattern calls predicate) := by
  unfold narrowed
  split
  · exact steady_find pattern h
  · refine ((steady_match pattern).append hcalls.steady).append ?_
    cases predicate with
    | none => exact steady_nil
    | some p => exact steady_keep (h p rfl)

/-- A block of a condition holds its own calls, and those of its predicate. -/
theorem steady_quantified (q : Quantifier) (pattern : Pattern) {calls : List Clause}
    (hcalls : SingleCalls calls) {predicate : Option Expr} (h : ∀ p ∈ predicate, p.Steady) :
    (quantified q pattern calls predicate).Steady := by
  have hbody : ∀ predicate : Option Expr, (∀ p ∈ predicate, p.Steady) →
      Steady (narrowed pattern calls predicate) :=
    fun _ => steady_narrowed pattern hcalls
  cases q with
  | atLeastOne => exact hbody predicate h
  | noneAtAll => exact hbody predicate h
  | exactlyOne =>
    intro body hin
    have hin : body ∈ Clause.callsOf (narrowed pattern calls predicate) := by
      simpa [quantified, Expr.equals, Expr.calls, Expr.int] using hin
    exact hbody predicate h body hin
  | every =>
    cases predicate with
    | none => exact hbody none h
    | some p =>
      refine steady_callsOf.mpr fun e he => ?_
      simp only [List.mem_cons, List.not_mem_nil, or_false] at he
      rcases he with rfl | rfl
      · exact hbody (some p) h
      · refine hbody (some (.not p)) fun p' hp' => ?_
        cases hp'
        exact h p rfl

mutual
theorem steady_predicate (ctx : Context) (c : Condition) :
    Judges SingleCall Expr.Steady (Condition.predicate ctx c) := by
  match c with
  | .all items =>
    refine (steady_predicates ctx items).bind fun es hes => judges_pure ?_
    exact steady_partwise.getD (steady_partwise.allOf hes) true
  | .any items =>
    refine (steady_predicates ctx items).bind fun es hes => judges_pure ?_
    exact steady_partwise.getD (steady_partwise.anyOf hes) false
  | .not inner => exact (steady_predicate ctx inner).bind fun e he => judges_pure he
  | .compare subject op operand caseInsensitive => exact steady_comparePredicate ..
  | .nullness subject isNull =>
    refine (steady_subjectExpr subject).bind fun side hside => judges_pure ?_
    split
    · exact steady_of_calls_nil hside.2
    · exact steady_of_calls_nil hside.2
  | .labels labels => exact judges_pure (steady_of_calls_nil rfl)
  | .related relationship quantifier targets isComposite edgeCondition =>
    refine judges_skip _ fun edge => judges_skip _ fun node => ?_
    have hparts := judges_parts steady_partwise isComposite
      (steady_alternatives (ctx.enter node (some edge) ctx.result) targets)
      (steady_firstTarget _ targets) (steady_optionPredicate _ edgeCondition)
    exact (judges_lift hparts.gathered).bind fun r hr =>
      judges_pure (steady_quantified _ _ hr.2 (steady_partwise.allOf hr.1))
  | .aggregation a =>
    refine (judges_shared _ fun name => ensures_aggregationCall a name).bind fun name _ => ?_
    exact judges_pure (steady_of_calls_nil rfl)
  | .authenticated =>
    refine (judges_lift (ensures_param simple_param _)).bind fun e he => judges_pure ?_
    exact steady_of_calls_nil (by simp [Expr.equals, Expr.calls, he.calls, Expr.bool])
theorem steady_predicates (ctx : Context) (cs : List Condition) :
    Judges SingleCall (fun es => ∀ e ∈ es, e.Steady) (Condition.predicates ctx cs) := by
  match cs with
  | [] => exact judges_pure nofun
  | c :: rest =>
    refine (steady_predicate ctx c).bind fun e he => ?_
    exact (steady_predicates ctx rest).bind fun es hes =>
      judges_pure (List.forall_mem_cons.mpr ⟨he, hes⟩)
theorem steady_alternatives (ctx : Context) (targets : List (Entity × Option Condition)) :
    Judges SingleCall (fun es => ∀ e ∈ es, e.Steady) (Condition.alternatives ctx targets) := by
  match targets with
  | [] => exact judges_pure nofun
  | (entity, filter) :: rest =>
    refine (steady_optionPredicate ctx filter).bind fun own hown => ?_
    refine (steady_alternatives ctx rest).bind fun es hes => judges_pure ?_
    refine List.forall_mem_append.mpr ⟨fun e he => ?_, hes⟩
    refine steady_partwise.allOf ?_ e (Option.mem_toList.mp he)
    exact List.forall_mem_cons.mpr ⟨steady_of_calls_nil rfl, hown⟩
theorem steady_firstTarget (ctx : Context) (targets : List (Entity × Option Condition)) :
    Judges SingleCall (fun es => ∀ e ∈ es, e.Steady) (Condition.firstTarget ctx targets) := by
  match targets with
  | [] => exact judges_pure nofun
  | (entity, filter) :: rest => exact steady_optionPredicate ctx filter
theorem steady_optionPredicate (ctx : Context) (filter : Option Condition) :
    Judges SingleCall (fun es => ∀ e ∈ es, e.Steady) (Condition.optionPredicate ctx filter) := by
  match filter with
  | none => exact judges_pure nofun
  | some c =>
    exact (steady_predicate ctx c).bind fun e he =>
      judges_pure (List.forall_mem_singleton.mpr he)
end

theorem ensures_filteredMatch (pattern : Pattern) (filter : Option Condition) :
    Ensures Steady (filteredMatch pattern filter ctx) := by
  refine (steady_optionPredicate ctx filter).gathered.bind fun r hr => ensures_pure ?_
  refine steady_narrowed pattern hr.2 fun p hp => ?_
  exact hr.1 p (List.mem_of_mem_head? hp)

/-- Validations keep every row. -/
theorem ensures_validated (validations : List Condition) :
    Ensures (fun cs => Steady cs ∧ Keeps cs) (validated ctx validations) := by
  have hsteady : ∀ c ∈ validations, Judges SingleCall Expr.Steady (Condition.predicate ctx c) :=
    fun c _ => steady_predicate ctx c
  have hparts := ensures_validationParts steady_partwise hsteady
  refine hparts.bind fun r hr => ensures_pure ?_
  have hcalls : SingleCalls r.1 := hr.1
  cases hall : Expr.allOf r.2 with
  | none => exact ⟨hcalls.steady.append steady_nil, hcalls.keeps.append keeps_nil⟩
  | some e =>
    have he : e.Steady := hr.2 e hall
    have hassertion : Steady [assertion ctx.terms e] := by
      refine steady_keep (steady_callsOf.mpr fun arg harg => ?_)
      simp only [List.mem_cons, List.not_mem_nil, or_false] at harg
      rcases harg with rfl | rfl | rfl
      · exact he
      · exact steady_of_calls_nil rfl
      · exact steady_of_calls_nil rfl
    exact ⟨hcalls.steady.append hassertion, hcalls.keeps.append (keeps_assertion rfl)⟩

end Conditions

section Scopes

variable {ctx : Context}

theorem ensures_scopeMatch (scope : Scope) : Ensures Steady (scopeMatch ctx scope) := by
  refine ensures_skip _ fun pattern => ?_
  refine (ensures_filteredMatch pattern scope.filter).bind fun found hfound => ?_
  refine (ensures_validated scope.validations).bind fun checks hchecks => ensures_pure ?_
  exact hfound.append hchecks.1

theorem ensures_distinctNodes (scope : Scope) : Ensures Steady (distinctNodes ctx scope) := by
  refine (ensures_scopeMatch scope).bind fun clauses hclauses => ?_
  split
  · exact ensures_pure hclauses
  · refine ensures_pure (hclauses.append (steady_of_callless ?_))
    simp [Clause.calls, Expr.callsOfColumns, Expr.callsOfOrder, Expr.callsOfOption, Column.var,
      Expr.calls]

theorem ensures_importParent : Ensures Steady (importParent ctx) := by
  unfold importParent
  split
  · exact ensures_pure steady_nil
  · refine ensures_skip _ fun parent => ensures_pure (steady_carryOnly fun c hc => ?_)
    rw [List.mem_singleton] at hc
    exact hc ▸ rfl

theorem ensures_measureCall (scope : Scope) (m : Measure) (result : String) :
    Ensures SingleCall (measureCall ctx scope m result) := by
  refine ensures_skip _ fun imports => ?_
  refine (ensures_scopeMatch scope).bind fun found hfound => ?_
  refine (ensures_lift fun reduced h => measured_aggregate h).bind fun reduced hreduced => ?_
  obtain ⟨hbefore, hgrain, hcalls⟩ := hreduced
  refine ensures_pure (singleCall_of_gathers ((gathers_give hgrain result).after _) ?_)
  exact (hfound.append hbefore).append (steady_give hcalls result)

/-- Calls of one row with the entries that name their results. -/
def Entered (r : List Clause × List (String × Expr)) : Prop :=
  SingleCalls r.1 ∧ ∀ entry ∈ r.2, entry.2.Simple

mutual
theorem ensures_aggregateEntry {call : Measure → String → Build Clause}
    (hcall : ∀ m name, Ensures SingleCall (call m name)) (item : AggregateItem) :
    Ensures (fun r => SingleCalls r.1 ∧ r.2.2.Simple) (aggregateEntry call item) := by
  match item with
  | .measure key m =>
    refine ensures_skip _ fun name => (hcall m name).bind fun clause hclause => ?_
    exact ensures_pure ⟨singleCalls_single hclause, simple_var name⟩
  | .group key items =>
    refine (ensures_aggregateEntries hcall items).bind fun r hr => ?_
    exact ensures_pure ⟨hr.1, simple_map hr.2⟩
  | .typename key typeName => exact ensures_pure ⟨singleCalls_nil, simple_string typeName⟩
theorem ensures_aggregateEntries {call : Measure → String → Build Clause}
    (hcall : ∀ m name, Ensures SingleCall (call m name)) (items : List AggregateItem) :
    Ensures Entered (aggregateEntries call items) := by
  match items with
  | [] => exact ensures_pure ⟨singleCalls_nil, fun entry hentry => absurd hentry List.not_mem_nil⟩
  | item :: rest =>
    refine (ensures_aggregateEntry hcall item).bind fun first hfirst => ?_
    refine (ensures_aggregateEntries hcall rest).bind fun more hmore => ensures_pure ?_
    refine ⟨hfirst.1.append hmore.1, fun entry hentry => ?_⟩
    rcases List.mem_cons.mp hentry with rfl | hentry
    · exact hfirst.2
    · exact hmore.2 entry hentry
end

/-- Single calls and a map of their results keep the rows. -/
theorem Entered.gives {r : List Clause × List (String × Expr)} (h : Entered r) (result : String) :
    Steady (r.1 ++ [.give (.map r.2) result]) ∧ Keeps (r.1 ++ [.give (.map r.2) result]) := by
  have hmap := simple_map h.2
  exact ⟨h.1.steady.append (steady_give hmap.calls result),
    h.1.keeps.append (keeps_give hmap.grain result)⟩

theorem ensures_aggregateClauses (a : Aggregate) :
    Ensures (fun cs => Steady cs ∧ OneRow cs) (aggregateClauses ctx a) := by
  refine (ensures_aggregateEntries (ensures_measureCall a.scope) a.items).bind fun r hr => ?_
  exact ensures_pure ⟨(hr.gives ctx.result).1, (hr.gives ctx.result).2.oneRow⟩

theorem ensures_sortValues (sort : List SortKey) :
    Ensures (fun r => SingleCalls r.1 ∧ ∀ key ∈ r.2, key.expression.Simple)
      (sortValues ctx sort) := by
  induction sort with
  | nil => exact ensures_pure ⟨singleCalls_nil, fun key hkey => absurd hkey List.not_mem_nil⟩
  | cons key rest ih =>
    have hvalue : Ensures (fun r => SingleCalls r.1 ∧ r.2.Simple) (sortValue ctx key) := by
      unfold sortValue
      split
      · exact ensures_pure ⟨singleCalls_nil, simple_propertyOf ..⟩
      · exact ensures_skip _ fun edge => ensures_pure ⟨singleCalls_nil, simple_propertyOf ..⟩
      · refine ensures_skip _ fun name => (ensures_computedCall _ name).bind fun call hcall => ?_
        exact ensures_pure ⟨singleCalls_single hcall, simple_var name⟩
    refine hvalue.bind fun first hfirst => ih.bind fun more hmore => ensures_pure ?_
    refine ⟨hfirst.1.append hmore.1, fun key' hkey' => ?_⟩
    rcases List.mem_cons.mp hkey' with rfl | hkey'
    · exact hfirst.2
    · exact hmore.2 key' hkey'

theorem callsOfOption_eq_nil {e : Option Expr} (h : ∀ p ∈ e, p.Simple) :
    Expr.callsOfOption e = [] := by
  cases e with
  | none => rfl
  | some p => exact (h p rfl).calls

theorem steady_ordered {columns : List (Column Expr)} (hcolumns : ∀ c ∈ columns,
    c.expression.calls = []) {order : List (OrderKey Expr)}
    (horder : ∀ key ∈ order, key.expression.calls = []) {b : Bounds} (hb : b.All Expr.Simple) :
    Steady [.carry columns false order b.skip b.limit none] := by
  refine steady_of_callless ?_
  rw [Clause.calls, callsOfColumns_eq_nil hcolumns, callsOfOrder_eq_nil horder,
    callsOfOption_eq_nil hb.skip, callsOfOption_eq_nil hb.limit]
  rfl

theorem ensures_orderedWindow (sort : List SortKey) {b : Bounds} (hb : b.All Expr.Simple) :
    Ensures Steady (orderedWindow ctx sort b) := by
  unfold orderedWindow
  split
  · exact ensures_pure steady_nil
  · refine (ensures_sortValues sort).bind fun r hr => ensures_pure (hr.1.steady.append ?_)
    refine steady_ordered (fun c hc => ?_) (fun key hkey => (hr.2 key hkey).calls) hb
    rw [List.mem_singleton] at hc
    exact hc ▸ rfl

theorem ensures_arranged (sort : List SortKey) (page : Page) :
    Ensures Steady (arranged ctx sort page) := by
  unfold arranged
  split
  · exact ensures_pure steady_nil
  · exact (ensures_bounds simple_param page).bind fun b hb => ensures_orderedWindow sort hb

end Scopes

end GraphSelection.Program
