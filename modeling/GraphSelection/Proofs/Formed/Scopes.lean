import GraphSelection.Program.Scope
import GraphSelection.Proofs.Ensured
import GraphSelection.Proofs.Formed.Grants
import GraphSelection.Proofs.Parts

/-!
Conditions, scopes and windows are written in well-formed lists. Nothing that looks a scope up
writes: matches, calls and assertions may follow one another in any order, and only a `RETURN` ends
the body of a call.
-/
namespace GraphSelection.Program

open Cypher Plan Minting

variable {policy : Policy} {ctx : Context}

/-- The statement of the attribute may stand in a program. -/
def Allows (policy : Policy) (a : Attribute) : Prop :=
  ∀ c, a.computation = some c → policy.statements c.statement

section Leaves

theorem obeys_propertyOf (name key : String) : (Expr.propertyOf name key).Obeys policy :=
  obeys_var name

theorem obeys_collected {e : Expr} (h : e.Obeys policy) (isList : Bool) :
    (collected e isList).Obeys policy := by
  unfold collected
  split <;> simpa using h

theorem grants_computedCall {a : Attribute} (ha : Allows policy a) (result : String) :
    Grants policy (Clause.Still policy) (computedCall ctx a result) := by
  unfold computedCall
  split
  · exact grants_fail _
  · rename_i c hc
    refine (grants_fresh (by decide)).skip fun column => grants_pure ((still_call _).mpr ?_)
    have hstatement : (Clause.call [ctx.subject]
        [.carryOnly [Column.named (.var ctx.subject) "this"], .raw c.statement]).Still policy :=
      still_statement (ha c hc) _ (by simp [Column.named])
    have hcolumn : (Clause.carryOnly [Column.named (.var c.column) column]).Still policy := by
      simp [Column.named]
    have hbefore : StillList policy [_, _] :=
      stillList_cons.mpr ⟨hstatement, stillList_cons.mpr ⟨hcolumn, stillList_nil⟩⟩
    exact hbefore.opened.give (obeys_collected (obeys_var column) a.isList) result _

/-- The names of a nested place: its edge, its node and its result. -/
theorem grants_names {β : Type} {q : β → Prop} {f : String → String → String → Build β}
    (h : ∀ edge node result, Grants policy q (f edge node result)) :
    Grants policy q (do
      let edge ← fresh "this"
      let node ← fresh "this"
      let result ← fresh "var"
      f edge node result) :=
  (grants_fresh (by decide)).skip fun edge => (grants_fresh (by decide)).skip fun node =>
    (grants_fresh (by decide)).skip fun result => h edge node result

/-- What comes before a reduction, and the reduction. -/
def ObeyReduced (policy : Policy) (r : Reduced) : Prop :=
  StillList policy r.1 ∧ r.2.Obeys policy

theorem obeys_reduce {value : Expr} (h : value.Obeys policy) (f : Reduction) :
    ObeyReduced policy (reduce value f) := by
  cases f <;> simp [reduce, ObeyReduced, h]

theorem grants_measured (m : Measure) (node : String) (edge : Option String) :
    Grants policy (ObeyReduced policy) (liftM (measured m node edge) : Build Reduced) := by
  refine grants_lift fun reduced h => ?_
  unfold measured at h
  split at h
  all_goals cases h
  · simp [ObeyReduced]
  · simp [ObeyReduced]
  · exact obeys_reduce (obeys_propertyOf _ _) _
  · exact obeys_reduce (obeys_propertyOf _ _) _

theorem obeys_construct {e : Expr} (h : e.Obeys policy) (kind : Option ScalarKind) :
    (construct kind e).Obeys policy := by
  unfold construct
  split <;> simpa using h

theorem obeys_constructEach {e : Expr} (h : e.Obeys policy) (kind : Option ScalarKind) :
    (constructEach kind e).Obeys policy := by
  unfold constructEach
  split <;> simpa using h

theorem grants_typedParam (value : Doc) (kind : Option ScalarKind) :
    Grants policy (fun e => e.Obeys policy) (typedParam value kind) :=
  (grants_param value).bind fun _ => grants_pure fun h => obeys_construct h kind

theorem grants_typedListParam (value : Doc) (kind : Option ScalarKind) :
    Grants policy (fun e => e.Obeys policy) (typedListParam value kind) :=
  (grants_param value).bind fun _ => grants_pure fun h => obeys_constructEach h kind

theorem obeys_comparison {left right : Expr} (hl : left.Obeys policy) (hr : right.Obeys policy)
    (op : Comparison) : (comparison op left right).Obeys policy := by
  cases op <;> simp [comparison, hl, hr]

theorem grants_aggregationCall (a : Aggregation) (result : String) :
    Grants policy (Clause.Still policy) (aggregationCall ctx a result) := by
  refine (grants_fresh (by decide)).skip fun edge => (grants_fresh (by decide)).skip fun node => ?_
  refine (grants_measured ..).bind fun reduced => ?_
  refine (grants_typedParam ..).bind fun right => grants_pure fun hright hreduced => ?_
  obtain ⟨hbefore, hvalue⟩ := hreduced
  have hleft : (if a.measure.comparesLength then .apply "size" [reduced.2]
      else reduced.2).Obeys policy := by
    split <;> simpa using hvalue
  have hfound : StillList policy (.find (traversal ctx.subject a.relationship edge
      (NodePattern.named node a.target.labels)) none :: reduced.1) := by
    simpa using hbefore
  exact (still_call _).mpr (hfound.opened.give (obeys_comparison hleft hright a.op) result _)

/-- Guards and a side of a comparison. -/
def ObeySides (policy : Policy) (side : List Expr × Expr) : Prop :=
  (∀ g ∈ side.1, g.Obeys policy) ∧ side.2.Obeys policy

theorem grants_claimParam (value : Option Doc) :
    Grants policy (ObeySides policy) (claimParam value) :=
  (grants_param _).bind fun _ => grants_pure fun h => ⟨by simpa using h, h⟩

theorem admits_subjectExpr {subject : Subject} {edges : Bool}
    (h : subject.Fits (Allows policy) edges) :
    Admits policy (ObeySides policy) (subjectExpr ctx subject) := by
  cases subject with
  | node a => exact admits_pure ⟨by simp, obeys_propertyOf _ _⟩
  | edge a =>
    refine (admits_lift (grants_lift (p := fun _ => True) fun _ _ => trivial)).skip fun edge => ?_
    exact admits_pure ⟨by simp, obeys_propertyOf _ _⟩
  | computed a =>
    refine (admits_shared _ fun name => grants_computedCall h name).skip fun name => ?_
    exact admits_pure ⟨by simp, obeys_var name⟩
  | claim path value => exact admits_lift (grants_claimParam value)

theorem grants_operandExpr (kind : Option ScalarKind) (op : Comparison) (operand : Operand) :
    Grants policy (ObeySides policy) (operandExpr kind op operand) := by
  cases operand with
  | literal value =>
    dsimp only [operandExpr]
    split
    · exact (grants_typedListParam ..).bind fun e => grants_pure fun he => ⟨by simp, he⟩
    · exact (grants_typedParam ..).bind fun e => grants_pure fun he => ⟨by simp, he⟩
  | claim path value => exact grants_claimParam value

theorem obeys_lowered {e : Expr} (h : e.Obeys policy) (caseInsensitive : Bool) :
    (lowered caseInsensitive e).Obeys policy := by
  unfold lowered
  split <;> simpa using h

theorem admits_comparePredicate {subject : Subject} {edges : Bool}
    (h : subject.Fits (Allows policy) edges) (op : Comparison) (operand : Operand)
    (caseInsensitive : Bool) : Admits policy (fun e => e.Obeys policy)
      (comparePredicate ctx subject op operand caseInsensitive) := by
  refine (admits_subjectExpr h).bind fun left => ?_
  refine (admits_lift (grants_operandExpr ..)).bind fun right => admits_pure fun hright hleft => ?_
  refine obeys_partwise.getD (obeys_partwise.allOf fun e he => ?_) true
  rcases List.mem_append.mp he with he | he
  · rcases List.mem_append.mp he with he | he
    · exact hleft.1 e he
    · exact hright.1 e he
  · rw [List.mem_singleton] at he
    exact he ▸ obeys_comparison (obeys_lowered hleft.2 _) (obeys_lowered hright.2 _) op

end Leaves

section Conditions

theorem still_narrowed (pattern : Pattern) {calls : List Clause} (hcalls : StillList policy calls)
    {predicate : Option Expr} (h : ∀ p ∈ predicate, p.Obeys policy) :
    StillList policy (narrowed pattern calls predicate) := by
  unfold narrowed
  split
  · simpa using h
  · have hkept : StillList policy (predicate.map Clause.keep).toList := by
      intro c hc
      obtain ⟨p, hp, rfl⟩ := Option.map_eq_some_iff.mp (Option.mem_toList.mp hc)
      exact still_keep.mpr (h p hp)
    simp [hcalls, hkept]

theorem obeys_quantified (q : Quantifier) (pattern : Pattern) {calls : List Clause}
    (hcalls : StillList policy calls) {predicate : Option Expr}
    (h : ∀ p ∈ predicate, p.Obeys policy) :
    (quantified q pattern calls predicate).Obeys policy := by
  have hbody : ∀ predicate : Option Expr, (∀ p ∈ predicate, p.Obeys policy) →
      Block policy .block (narrowed pattern calls predicate) :=
    fun _ hp => (still_narrowed pattern hcalls hp).opened.block
  cases q with
  | atLeastOne => exact (hbody predicate h).existsIn
  | noneAtAll => exact (hbody predicate h).existsIn
  | exactlyOne =>
    exact (obeys_binary _).mpr ⟨(hbody predicate h).countIn, obeys_literal _⟩
  | every =>
    cases predicate with
    | none => exact (hbody none h).existsIn
    | some p =>
      have hp : p.Obeys policy := h p rfl
      have hsome : (Expr.existsIn (narrowed pattern calls (some p))).Obeys policy :=
        (hbody (some p) h).existsIn
      have hnone : (Expr.existsIn (narrowed pattern calls (some (.not p)))).Obeys policy := by
        refine (hbody (some (.not p)) fun p' hp' => ?_).existsIn
        cases hp'
        exact hp
      refine obeys_all.mpr fun e he => ?_
      simp only [List.mem_cons, List.not_mem_nil, or_false] at he
      rcases he with rfl | rfl
      · exact hsome
      · exact hnone

mutual
theorem admits_predicate (ctx : Context) (c : Condition) {edges : Bool}
    (h : c.Fits (Allows policy) edges) :
    Admits policy (fun e => e.Obeys policy) (Condition.predicate ctx c) := by
  match c with
  | .all items =>
    have hitems : ∀ c ∈ items, c.Fits (Allows policy) edges := by cases h; assumption
    refine (admits_predicates ctx items hitems).bind fun es => admits_pure fun hes => ?_
    exact obeys_partwise.getD (obeys_partwise.allOf hes) true
  | .any items =>
    have hitems : ∀ c ∈ items, c.Fits (Allows policy) edges := by cases h; assumption
    refine (admits_predicates ctx items hitems).bind fun es => admits_pure fun hes => ?_
    exact obeys_partwise.getD (obeys_partwise.anyOf hes) false
  | .not inner =>
    have hinner : inner.Fits (Allows policy) edges := by cases h; assumption
    exact (admits_predicate ctx inner hinner).bind fun e => admits_pure fun he => obeys_not.mpr he
  | .compare subject op operand caseInsensitive =>
    have hsubject : subject.Fits (Allows policy) edges := by cases h; assumption
    exact admits_comparePredicate hsubject ..
  | .nullness subject isNull =>
    have hsubject : subject.Fits (Allows policy) edges := by cases h; assumption
    refine (admits_subjectExpr hsubject).bind fun side => admits_pure fun hside => ?_
    split
    · exact obeys_isNull.mpr hside.2
    · exact obeys_isNotNull.mpr hside.2
  | .labels labels => exact admits_pure (obeys_hasLabels _ _)
  | .related relationship quantifier targets isComposite edgeCondition =>
    have hparts : (∀ p ∈ targets, ∀ c ∈ p.2, c.Fits (Allows policy) true) ∧
        ∀ c ∈ edgeCondition, c.Fits (Allows policy) true := by
      cases h with
      | related _ _ _ htargets hedge => exact ⟨htargets, hedge⟩
    obtain ⟨htargets, hedge⟩ := hparts
    refine (admits_lift (grants_fresh (by decide))).skip fun edge => ?_
    refine (admits_lift (grants_fresh (by decide))).skip fun node => ?_
    have hafter : ∀ parts : List Expr, Admits policy
        (fun es => (∀ e ∈ parts, e.Obeys policy) → ∀ e ∈ es, e.Obeys policy)
        (do return parts ++
          (← Condition.optionPredicate (ctx.enter node (some edge) ctx.result) edgeCondition)) := by
      intro parts
      refine (admits_optionPredicate _ edgeCondition hedge).bind fun own => ?_
      refine admits_pure fun hown hparts e he => ?_
      rcases List.mem_append.mp he with he | he
      · exact hparts e he
      · exact hown e he
    refine (admits_lift (Admits.gathered (p := fun es => ∀ e ∈ es, e.Obeys policy) ?_)).bind
      fun r => admits_pure fun hr => obeys_quantified _ _ hr.2 (obeys_partwise.allOf hr.1)
    split
    · refine (admits_alternatives _ targets htargets).bind fun es => ?_
      refine ⟨fun q => ((hafter [(Expr.anyOf es).getD (.bool false)]).run q).mono
        fun _ hr hq => ⟨fun hes => (hr hq).1 fun e he => ?_, (hr hq).2⟩⟩
      rw [List.mem_singleton] at he
      exact he ▸ obeys_partwise.getD (obeys_partwise.anyOf hes) false
    · exact (admits_firstTarget _ targets htargets).bind fun es => hafter es
  | .aggregation a =>
    refine (admits_shared _ fun name => grants_aggregationCall a name).skip fun name => ?_
    exact admits_pure ((obeys_binary _).mpr ⟨obeys_var name, obeys_literal _⟩)
  | .authenticated =>
    refine (admits_lift (grants_param _)).bind fun e => admits_pure fun he => ?_
    exact (obeys_binary _).mpr ⟨he, obeys_literal _⟩
theorem admits_predicates (ctx : Context) (cs : List Condition) {edges : Bool}
    (h : ∀ c ∈ cs, c.Fits (Allows policy) edges) :
    Admits policy (fun es => ∀ e ∈ es, e.Obeys policy) (Condition.predicates ctx cs) := by
  match cs with
  | [] => exact admits_pure (by simp)
  | c :: rest =>
    refine (admits_predicate ctx c (h c List.mem_cons_self)).bind fun e => ?_
    refine (admits_predicates ctx rest fun c hc => h c (List.mem_cons_of_mem _ hc)).bind ?_
    refine fun es => admits_pure fun hes he => List.forall_mem_cons.mpr ⟨he, hes⟩
theorem admits_alternatives (ctx : Context) (targets : List (Entity × Option Condition))
    {edges : Bool} (h : ∀ p ∈ targets, ∀ c ∈ p.2, c.Fits (Allows policy) edges) :
    Admits policy (fun es => ∀ e ∈ es, e.Obeys policy) (Condition.alternatives ctx targets) := by
  match targets with
  | [] => exact admits_pure (by simp)
  | (entity, filter) :: rest =>
    refine (admits_optionPredicate ctx filter (h _ List.mem_cons_self)).bind fun own => ?_
    refine (admits_alternatives ctx rest fun p hp => h p (List.mem_cons_of_mem _ hp)).bind
      fun es => admits_pure fun hes hown e he => ?_
    rcases List.mem_append.mp he with he | he
    · refine obeys_partwise.allOf (fun e he => ?_) e (Option.mem_toList.mp he)
      rcases List.mem_cons.mp he with rfl | he
      · exact obeys_hasLabels _ _
      · exact hown e he
    · exact hes e he
theorem admits_firstTarget (ctx : Context) (targets : List (Entity × Option Condition))
    {edges : Bool} (h : ∀ p ∈ targets, ∀ c ∈ p.2, c.Fits (Allows policy) edges) :
    Admits policy (fun es => ∀ e ∈ es, e.Obeys policy) (Condition.firstTarget ctx targets) := by
  match targets with
  | [] => exact admits_pure (by simp)
  | (entity, filter) :: rest => exact admits_optionPredicate ctx filter (h _ List.mem_cons_self)
theorem admits_optionPredicate (ctx : Context) (filter : Option Condition) {edges : Bool}
    (h : ∀ c ∈ filter, c.Fits (Allows policy) edges) :
    Admits policy (fun es => ∀ e ∈ es, e.Obeys policy) (Condition.optionPredicate ctx filter) := by
  match filter with
  | none => exact admits_pure (by simp)
  | some c =>
    exact (admits_predicate ctx c (h c rfl)).bind fun e => admits_pure fun he => by simpa using he
end

theorem grants_filteredMatch (pattern : Pattern) {filter : Option Condition} {edges : Bool}
    (h : ∀ c ∈ filter, c.Fits (Allows policy) edges) :
    Grants policy (StillList policy) (filteredMatch pattern filter ctx) := by
  refine (admits_optionPredicate ctx filter h).gathered.bind fun r => grants_pure fun hr => ?_
  exact still_narrowed pattern hr.2 fun p hp => hr.1 p (List.mem_of_mem_head? hp)

theorem obeys_assertion (terms : Terms) {e : Expr} (h : e.Obeys policy) :
    (assertion terms e).Still policy := by
  simp [assertion, Expr.string, Expr.int, h]

theorem grants_validationParts {validations : List Condition}
    (h : FitsAll (Allows policy) validations) :
    Grants policy (fun r => StillList policy r.1 ∧ ∀ e ∈ r.2, e.Obeys policy)
      (validationParts ctx validations) := by
  induction validations with
  | nil => exact grants_pure (by simp)
  | cons c rest ih =>
    refine (admits_predicate ctx c (h c List.mem_cons_self)).gathered.bind fun first => ?_
    refine (ih fun c hc => h c (List.mem_cons_of_mem _ hc)).bind fun more => ?_
    refine grants_pure fun hmore hfirst => ⟨?_, List.forall_mem_cons.mpr ⟨hfirst.1, hmore.2⟩⟩
    exact stillList_append.mpr ⟨hfirst.2, hmore.1⟩

theorem grants_validated {validations : List Condition}
    (h : FitsAll (Allows policy) validations) :
    Grants policy (StillList policy) (validated ctx validations) := by
  refine (grants_validationParts h).bind fun r => grants_pure fun hr => ?_
  refine stillList_append.mpr ⟨hr.1, fun c hc => ?_⟩
  obtain ⟨e, he, rfl⟩ := Option.map_eq_some_iff.mp (Option.mem_toList.mp hc)
  exact obeys_assertion ctx.terms (obeys_partwise.allOf hr.2 e he)

end Conditions

section Scopes

theorem grants_scopeMatch {scope : Scope} {edges : Bool} (h : scope.Fits (Allows policy) edges) :
    Grants policy (StillList policy) (scopeMatch ctx scope) := by
  refine (grants_lift (p := fun _ => True) fun _ _ => trivial).skip fun pattern => ?_
  refine (grants_filteredMatch pattern h.filter).bind fun found => ?_
  refine (grants_validated h.validations).bind fun checks => grants_pure fun hchecks hfound => ?_
  exact stillList_append.mpr ⟨hfound, hchecks⟩

theorem grants_distinctNodes {scope : Scope} {edges : Bool}
    (h : scope.Fits (Allows policy) edges) :
    Grants policy (StillList policy) (distinctNodes ctx scope) := by
  refine (grants_scopeMatch h).bind fun clauses => ?_
  split
  · exact grants_pure fun hclauses => hclauses
  · exact grants_pure fun hclauses => by simp [hclauses, Column.var]

theorem grants_importParent : Grants policy (StillList policy) (importParent ctx) := by
  unfold importParent
  split
  · exact grants_pure stillList_nil
  · refine (grants_lift (p := fun _ => True) fun _ _ => trivial).skip fun parent => ?_
    exact grants_pure (by simp [Column.var])

theorem grants_measureCall {scope : Scope} {edges : Bool} (h : scope.Fits (Allows policy) edges)
    (m : Measure) (result : String) :
    Grants policy (Clause.Still policy) (measureCall ctx scope m result) := by
  refine (grants_lift (p := fun _ => True) fun _ _ => trivial).skip fun imports => ?_
  refine (grants_scopeMatch h).bind fun found => ?_
  refine (grants_measured ..).bind fun reduced => ?_
  refine grants_pure fun hreduced hfound => (still_call _).mpr ?_
  have hbefore : StillList policy (found ++ reduced.1) := stillList_append.mpr ⟨hfound, hreduced.1⟩
  exact hbefore.opened.give hreduced.2 result _

/-- Calls with the entries that name their results. -/
def ObeyEntries (policy : Policy) (r : List Clause × List (String × Expr)) : Prop :=
  StillList policy r.1 ∧ ∀ entry ∈ r.2, entry.2.Obeys policy

theorem obeyEntries_nil : ObeyEntries policy ([], []) := ⟨stillList_nil, by simp⟩

theorem ObeyEntries.cons {calls : List Clause} {e : Expr} {r : List Clause × List (String × Expr)}
    (hcalls : StillList policy calls) (he : e.Obeys policy) (h : ObeyEntries policy r)
    (key : String) : ObeyEntries policy (calls ++ r.1, (key, e) :: r.2) :=
  ⟨stillList_append.mpr ⟨hcalls, h.1⟩, List.forall_mem_cons.mpr ⟨he, h.2⟩⟩

mutual
theorem grants_aggregateEntry {call : Measure → String → Build Clause}
    (hcall : ∀ m name, Grants policy (Clause.Still policy) (call m name)) (item : AggregateItem) :
    Grants policy (fun r => StillList policy r.1 ∧ r.2.2.Obeys policy)
      (aggregateEntry call item) := by
  match item with
  | .measure key m =>
    refine (grants_fresh (by decide)).skip fun name => (hcall m name).bind fun clause => ?_
    exact grants_pure fun hclause => ⟨by simpa using hclause, obeys_var name⟩
  | .group key items =>
    refine (grants_aggregateEntries hcall items).bind fun r => grants_pure fun hr => ?_
    exact ⟨hr.1, obeys_map.mpr hr.2⟩
  | .typename key typeName => exact grants_pure ⟨stillList_nil, obeys_literal _⟩
theorem grants_aggregateEntries {call : Measure → String → Build Clause}
    (hcall : ∀ m name, Grants policy (Clause.Still policy) (call m name))
    (items : List AggregateItem) :
    Grants policy (ObeyEntries policy) (aggregateEntries call items) := by
  match items with
  | [] => exact grants_pure obeyEntries_nil
  | item :: rest =>
    refine (grants_aggregateEntry hcall item).bind fun first => ?_
    refine (grants_aggregateEntries hcall rest).bind fun more => grants_pure fun hmore hfirst => ?_
    exact .cons hfirst.1 hfirst.2 hmore _
end

/-- Calls and a map of their results are a whole body. -/
theorem ObeyEntries.answer {r : List Clause × List (String × Expr)} (h : ObeyEntries policy r)
    {before : List Clause} (hbefore : StillList policy before) (result : String) (place : Place) :
    Answer policy place result (before ++ r.1 ++ [.give (.map r.2) result]) :=
  (stillList_append.mpr ⟨hbefore, h.1⟩).opened.answer (obeys_map.mpr h.2) result place

theorem grants_aggregateClauses (ctx : Context) {a : Aggregate} {edges : Bool}
    (h : a.scope.Fits (Allows policy) edges) (place : Place) :
    Grants policy (Answer policy place ctx.result) (aggregateClauses ctx a) := by
  refine (grants_aggregateEntries (grants_measureCall h) a.items).bind fun r => ?_
  exact grants_pure fun hr => hr.answer stillList_nil ctx.result place

theorem grants_bounds (page : Page) :
    Grants policy (Bounds.All (Expr.Obeys policy)) (bounds page) := by
  have hcount : ∀ n : Option Nat,
      Grants policy (fun r => ∀ e ∈ r, e.Obeys policy) (countParam n) := by
    intro n
    cases n with
    | none => exact grants_pure nofun
    | some n => exact (grants_param _).bind fun e => grants_pure fun he => by simpa using he
  refine (hcount page.skip).bind fun skip => (hcount page.limit).bind fun limit => ?_
  exact grants_pure fun hlimit hskip => ⟨hskip, hlimit⟩

theorem grants_sortValue {key : SortKey} {edges : Bool}
    (h : key.target.Fits (Allows policy) edges) :
    Grants policy (fun r => StillList policy r.1 ∧ r.2.Obeys policy) (sortValue ctx key) := by
  unfold sortValue
  split
  · exact grants_pure ⟨stillList_nil, obeys_propertyOf _ _⟩
  · refine (grants_lift (p := fun _ => True) fun _ _ => trivial).skip fun edge => ?_
    exact grants_pure ⟨stillList_nil, obeys_propertyOf _ _⟩
  · rename_i a htarget
    have ha : Allows policy a := by
      rw [htarget] at h
      exact h
    refine (grants_fresh (by decide)).skip fun name => (grants_computedCall ha name).bind ?_
    exact fun call => grants_pure fun hcall => ⟨by simpa using hcall, obeys_var name⟩

theorem grants_sortValues {sort : List SortKey} {edges : Bool}
    (h : ∀ key ∈ sort, key.target.Fits (Allows policy) edges) :
    Grants policy (fun r => StillList policy r.1 ∧ ∀ key ∈ r.2, key.expression.Obeys policy)
      (sortValues ctx sort) := by
  induction sort with
  | nil => exact grants_pure (by simp)
  | cons key rest ih =>
    refine (grants_sortValue (h key List.mem_cons_self)).bind fun first => ?_
    refine (ih fun key hkey => h key (List.mem_cons_of_mem _ hkey)).bind fun more => ?_
    refine grants_pure fun hmore hfirst => ⟨stillList_append.mpr ⟨hfirst.1, hmore.1⟩, ?_⟩
    exact List.forall_mem_cons.mpr ⟨hfirst.2, hmore.2⟩

theorem grants_orderedWindow {sort : List SortKey} {edges : Bool}
    (h : ∀ key ∈ sort, key.target.Fits (Allows policy) edges) (b : Bounds) :
    Grants policy (fun cs => b.All (Expr.Obeys policy) → StillList policy cs)
      (orderedWindow ctx sort b) := by
  unfold orderedWindow
  split
  · exact grants_pure fun _ => stillList_nil
  · refine (grants_sortValues h).bind fun r => grants_pure fun hr hb => ?_
    simpa [hr.1] using ⟨hr.2, hb.skip, hb.limit⟩

theorem grants_arranged {sort : List SortKey} {edges : Bool}
    (h : ∀ key ∈ sort, key.target.Fits (Allows policy) edges) (page : Page) :
    Grants policy (StillList policy) (arranged ctx sort page) := by
  unfold arranged
  split
  · exact grants_pure stillList_nil
  · exact (grants_bounds page).bind fun b => (grants_orderedWindow h b).mono fun _ hcs hb => hcs hb

end Scopes

end GraphSelection.Program
