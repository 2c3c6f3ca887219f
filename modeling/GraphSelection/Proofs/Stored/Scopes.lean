import GraphSelection.Proofs.Rows.Scopes
import GraphSelection.Proofs.Stored.Accesses
import GraphSelection.Proofs.Stored.Plans

/-!
What conditions, scopes, aggregates and windows access. They access stored properties on account of
their sites only. What else a program accesses is of its own making: the parts of an edge that it
has collected before, and the reference system of a point that it shows.
-/
namespace GraphSelection.Cypher

/-- Accesses of what the program itself has made. -/
inductive Access.Internal : Access → Prop
  /-- A part of an edge that is taken from the list of the edges. -/
  | part (n : Nat) {key : String} (h : key ∈ ["node", "relationship", "properties"]) :
      Access.Internal ⟨false, some ("edge" ++ toString n), key⟩
  /-- The value that such an edge is sorted by. -/
  | order (n k : Nat) : Access.Internal ⟨false, some ("edge" ++ toString n), "sort" ++ toString k⟩
  /-- The reference system of a point. -/
  | system : Access.Internal ⟨false, none, "crs"⟩

end GraphSelection.Cypher

namespace GraphSelection.Program

open Cypher Plan Resolve

/-- The access is of the property under which the attribute of the site is stored; it is written
just where the site is an assignment. -/
structure Site.Serves (t : Site) (x : Access) : Prop where
  use : x.writes = true ↔ t.use = .assignment
  holder : x.holder.isSome = true
  key : x.key = t.attr.stored

def Served (sites : List Site) (x : Access) : Prop := x.Internal ∨ ∃ t ∈ sites, Site.Serves t x

theorem ensures_fresh (hint : String) :
    Ensures (fun name => ∃ n : Nat, name = hint ++ toString n) (fresh hint) := by
  constructor
  intro s name t hrun
  obtain ⟨rfl, _⟩ := (fresh_ok hint name s t).mp hrun
  exact ⟨s.next, rfl⟩

section Leaves

variable {ctx : Context} {sites : List Site} {ok : Access → Prop}

@[simp] theorem only_collected {e : Expr} (isList : Bool) :
    (collected e isList).Only ok ↔ e.Only ok := by
  unfold collected
  split <;> simp

variable (ok) in
/-- A computed attribute is asked of its statement; no property is accessed for it. -/
theorem only_computedCall (a : Attribute) (result : String) :
    Ensures (Clause.Only ok) (computedCall ctx a result) := by
  unfold computedCall
  split
  · exact ensures_fail _
  · exact ensures_skip _ fun column => ensures_pure (by simp [Column.named])

theorem only_reduce {value : Expr} (h : value.Only ok) (f : Reduction) :
    AllOnly ok (reduce value f).1 ∧ (reduce value f).2.Only ok := by
  cases f <;> simp [reduce, h]

theorem served_read {t : Site} (ht : t ∈ sites) (huse : t.use ≠ .assignment) (name : String) :
    (Expr.propertyOf name t.attr.stored).Only (Served sites) :=
  (only_propertyOf ..).mpr (.inr ⟨t, ht, by simpa using huse, rfl, rfl⟩)

theorem only_measured {m : Measure} (hm : m.sites ⊆ sites) {node : String} {edge : Option String}
    {reduced : Reduced} (h : measured m node edge = .ok reduced) :
    AllOnly (Served sites) reduced.1 ∧ reduced.2.Only (Served sites) := by
  unfold measured at h
  split at h
  · cases h
    simp
  · cases h
    simp
  · cases h
    exact only_reduce (served_read (hm List.mem_cons_self) (by simp) _) _
  · cases h
    exact only_reduce (served_read (hm List.mem_cons_self) (by simp) _) _
  · cases h

variable (ok) in
theorem only_typedParam (value : Doc) (kind : Option ScalarKind) :
    Ensures (Expr.Only ok) (typedParam value kind) := by
  refine (ensures_param (P := Expr.Only ok) only_param value).bind fun e he => ensures_pure ?_
  unfold construct
  split <;> simp [he]

variable (ok) in
theorem only_typedListParam (value : Doc) (kind : Option ScalarKind) :
    Ensures (Expr.Only ok) (typedListParam value kind) := by
  refine (ensures_param (P := Expr.Only ok) only_param value).bind fun e he => ensures_pure ?_
  unfold constructEach
  split <;> simp [he]

@[simp] theorem only_comparison (op : Comparison) {left right : Expr} :
    (comparison op left right).Only ok ↔ left.Only ok ∧ right.Only ok := by
  cases op <;> simp [comparison, and_comm]

theorem only_aggregationCall (a : Aggregation) (h : a.measure.sites ⊆ sites) (result : String) :
    Ensures (Clause.Only (Served sites)) (aggregationCall ctx a result) := by
  refine ensures_skip _ fun edge => ensures_skip _ fun node => ?_
  refine (ensures_lift fun reduced hreduced => only_measured h hreduced).bind
    fun reduced hreduced => ?_
  refine (only_typedParam (Served sites) ..).bind fun right hright => ensures_pure ?_
  have hleft : (if a.measure.comparesLength then Expr.apply "size" [reduced.2]
      else reduced.2).Only (Served sites) := by
    split <;> simp [hreduced.2]
  simp [hleft, hright, hreduced.1]

end Leaves

section Conditions

variable {ctx : Context} {sites : List Site} {ok : Access → Prop}

/-- A side of a comparison with its guards. -/
def OnlySide (ok : Access → Prop) (side : List Expr × Expr) : Prop :=
  (∀ g ∈ side.1, g.Only ok) ∧ side.2.Only ok

theorem onlySide_unguarded {e : Expr} (h : e.Only ok) : OnlySide ok ([], e) := ⟨by simp, h⟩

variable (ok) in
theorem only_claimParam (value : Option Doc) : Ensures (OnlySide ok) (claimParam value) :=
  (ensures_param (P := Expr.Only ok) only_param _).bind fun _ he =>
    ensures_pure ⟨by simpa using he, he⟩

theorem only_subjectExpr {subject : Subject} (h : subject.sites ⊆ sites) :
    Judges (Clause.Only (Served sites)) (OnlySide (Served sites)) (subjectExpr ctx subject) := by
  cases subject with
  | node a =>
    exact judges_pure (onlySide_unguarded (served_read (h List.mem_cons_self) (by simp) _))
  | edge a =>
    exact judges_skip (liftM ctx.edge : Build String) fun edge =>
      judges_pure (onlySide_unguarded (served_read (h List.mem_cons_self) (by simp) _))
  | computed a =>
    exact (judges_shared _ (only_computedCall _ a)).bind fun name _ =>
      judges_pure (onlySide_unguarded (only_var name))
  | claim path value => exact judges_lift (only_claimParam _ value)

variable (ok) in
theorem only_operandExpr (kind : Option ScalarKind) (op : Comparison) (operand : Operand) :
    Ensures (OnlySide ok) (operandExpr kind op operand) := by
  cases operand with
  | literal value =>
    dsimp only [operandExpr]
    split
    · exact (only_typedListParam ok ..).bind fun e he => ensures_pure (onlySide_unguarded he)
    · exact (only_typedParam ok ..).bind fun e he => ensures_pure (onlySide_unguarded he)
  | claim path value => exact only_claimParam ok value

@[simp] theorem only_lowered (caseInsensitive : Bool) {e : Expr} :
    (lowered caseInsensitive e).Only ok ↔ e.Only ok := by
  unfold lowered
  split <;> simp

theorem only_comparePredicate {subject : Subject} (h : subject.sites ⊆ sites)
    (op : Comparison) (operand : Operand) (caseInsensitive : Bool) :
    Judges (Clause.Only (Served sites)) (Expr.Only (Served sites))
      (comparePredicate ctx subject op operand caseInsensitive) := by
  refine (only_subjectExpr h).bind fun left hleft => ?_
  refine (judges_lift (only_operandExpr (Served sites) ..)).bind fun right hright => judges_pure ?_
  refine only_partwise.getD (only_partwise.allOf fun e he => ?_) true
  simp only [List.mem_append, List.mem_singleton] at he
  rcases he with (he | he) | rfl
  · exact hleft.1 e he
  · exact hright.1 e he
  · simp [hleft.2, hright.2]

theorem only_narrowed (pattern : Pattern) {calls : List Clause} (hcalls : ∀ c ∈ calls, c.Only ok)
    {predicate : Option Expr} (h : ∀ p ∈ predicate, p.Only ok) :
    AllOnly ok (narrowed pattern calls predicate) := by
  have hbefore : AllOnly ok calls := allOnly_iff.mpr hcalls
  unfold narrowed
  split
  · simpa using h
  · cases predicate with
    | none => simpa using hbefore
    | some p => simpa using ⟨hbefore, h p rfl⟩

theorem only_quantified (q : Quantifier) (pattern : Pattern) {calls : List Clause}
    (hcalls : ∀ c ∈ calls, c.Only ok) {predicate : Option Expr}
    (h : ∀ p ∈ predicate, p.Only ok) : (quantified q pattern calls predicate).Only ok := by
  have hbody := only_narrowed pattern hcalls h
  cases q with
  | atLeastOne => exact hbody
  | noneAtAll => exact hbody
  | exactlyOne => simpa [quantified, Expr.equals, Expr.int] using hbody
  | every =>
    cases predicate with
    | none => exact hbody
    | some p =>
      have hnot : AllOnly ok (narrowed pattern calls (some (.not p))) :=
        only_narrowed pattern hcalls (by simpa using h)
      simpa [quantified] using ⟨hbody, hnot⟩

mutual
theorem only_predicate (ctx : Context) (c : Condition) (h : c.sites ⊆ sites) :
    Judges (Clause.Only (Served sites)) (Expr.Only (Served sites)) (Condition.predicate ctx c) := by
  match c with
  | .all items =>
    exact (only_predicates ctx items h).bind fun es hes =>
      judges_pure (only_partwise.getD (only_partwise.allOf hes) true)
  | .any items =>
    exact (only_predicates ctx items h).bind fun es hes =>
      judges_pure (only_partwise.getD (only_partwise.anyOf hes) false)
  | .not inner => exact (only_predicate ctx inner h).bind fun e he => judges_pure he
  | .compare subject op operand caseInsensitive => exact only_comparePredicate h ..
  | .nullness subject isNull =>
    refine (only_subjectExpr h).bind fun side hside => judges_pure ?_
    split <;> simp [hside.2]
  | .labels labels => exact judges_pure (only_hasLabels _ _)
  | .related relationship quantifier targets isComposite edgeCondition =>
    obtain ⟨htargets, hedge⟩ := List.append_subset.mp h
    refine judges_skip _ fun edge => judges_skip _ fun node => ?_
    have hparts := judges_parts only_partwise isComposite
      (only_alternatives (ctx.enter node (some edge) ctx.result) targets htargets)
      (only_firstTarget _ targets htargets) (only_optionPredicate _ edgeCondition hedge)
    exact (judges_lift hparts.gathered).bind fun r hr =>
      judges_pure (only_quantified _ _ hr.2 (only_partwise.allOf hr.1))
  | .aggregation a =>
    refine (judges_shared _ (only_aggregationCall a h)).bind fun name _ => judges_pure ?_
    simp [Expr.equals, Expr.bool]
  | .authenticated =>
    have hparam := ensures_param (P := Expr.Only (Served sites)) only_param
    refine (judges_lift (hparam _)).bind fun e he => judges_pure ?_
    simp [Expr.equals, Expr.bool, he]
theorem only_predicates (ctx : Context) (cs : List Condition)
    (h : Condition.sitesOf cs ⊆ sites) :
    Judges (Clause.Only (Served sites)) (fun es => ∀ e ∈ es, e.Only (Served sites))
      (Condition.predicates ctx cs) := by
  match cs with
  | [] => exact judges_pure (by simp)
  | c :: rest =>
    obtain ⟨hfirst, hrest⟩ := List.append_subset.mp h
    refine (only_predicate ctx c hfirst).bind fun e he => ?_
    exact (only_predicates ctx rest hrest).bind fun es hes =>
      judges_pure (List.forall_mem_cons.mpr ⟨he, hes⟩)
theorem only_alternatives (ctx : Context) (targets : List (Entity × Option Condition))
    (h : Condition.targetSites targets ⊆ sites) :
    Judges (Clause.Only (Served sites)) (fun es => ∀ e ∈ es, e.Only (Served sites))
      (Condition.alternatives ctx targets) := by
  match targets with
  | [] => exact judges_pure (by simp)
  | (entity, filter) :: rest =>
    obtain ⟨hfilter, hrest⟩ := List.append_subset.mp h
    refine (only_optionPredicate ctx filter hfilter).bind fun own hown => ?_
    refine (only_alternatives ctx rest hrest).bind fun es hes => judges_pure ?_
    refine List.forall_mem_append.mpr ⟨fun e he => ?_, hes⟩
    exact only_partwise.allOf (List.forall_mem_cons.mpr ⟨only_hasLabels _ _, hown⟩) e
      (Option.mem_toList.mp he)
theorem only_firstTarget (ctx : Context) (targets : List (Entity × Option Condition))
    (h : Condition.targetSites targets ⊆ sites) :
    Judges (Clause.Only (Served sites)) (fun es => ∀ e ∈ es, e.Only (Served sites))
      (Condition.firstTarget ctx targets) := by
  match targets with
  | [] => exact judges_pure (by simp)
  | (entity, filter) :: rest =>
    exact only_optionPredicate ctx filter (List.append_subset.mp h).1
theorem only_optionPredicate (ctx : Context) (filter : Option Condition)
    (h : Condition.optionSites filter ⊆ sites) :
    Judges (Clause.Only (Served sites)) (fun es => ∀ e ∈ es, e.Only (Served sites))
      (Condition.optionPredicate ctx filter) := by
  match filter with
  | none => exact judges_pure (by simp)
  | some c =>
    exact (only_predicate ctx c h).bind fun e he =>
      judges_pure (List.forall_mem_singleton.mpr he)
end

theorem only_filteredMatch (pattern : Pattern) {filter : Option Condition}
    (h : Condition.optionSites filter ⊆ sites) :
    Ensures (AllOnly (Served sites)) (filteredMatch pattern filter ctx) :=
  (only_optionPredicate ctx filter h).gathered.bind fun _ hr =>
    ensures_pure (only_narrowed pattern hr.2 fun p hp => hr.1 p (List.mem_of_mem_head? hp))

theorem only_validated {validations : List Condition}
    (h : Condition.sitesOf validations ⊆ sites) :
    Ensures (AllOnly (Served sites)) (validated ctx validations) := by
  have hsites : ∀ c ∈ validations, c.sites ⊆ sites := fun c hc site hsite =>
    h (Condition.sitesOf_eq validations ▸ List.mem_flatMap_of_mem hc hsite)
  have hparts := ensures_validationParts only_partwise
    fun c hc => only_predicate ctx c (hsites c hc)
  refine hparts.bind fun r hr =>
    ensures_pure (allOnly_append.mpr ⟨allOnly_iff.mpr hr.1, ?_⟩)
  cases hpredicate : Expr.allOf r.2 with
  | none => exact allOnly_nil
  | some e => simpa [assertion, Expr.string, Expr.int] using hr.2 e hpredicate

end Conditions

section Scopes

variable {ctx : Context} {sites : List Site} {ok : Access → Prop}

theorem only_scopeMatch {scope : Scope} (h : scope.sites ⊆ sites) :
    Ensures (AllOnly (Served sites)) (scopeMatch ctx scope) := by
  obtain ⟨hfilter, hvalidations⟩ := List.append_subset.mp h
  refine ensures_skip _ fun pattern => ?_
  refine (only_filteredMatch pattern hfilter).bind fun found hfound => ?_
  exact (only_validated hvalidations).bind fun checks hchecks =>
    ensures_pure (allOnly_append.mpr ⟨hfound, hchecks⟩)

theorem only_distinctNodes {scope : Scope} (h : scope.sites ⊆ sites) :
    Ensures (AllOnly (Served sites)) (distinctNodes ctx scope) := by
  refine (only_scopeMatch h).bind fun clauses hclauses => ?_
  split
  · exact ensures_pure hclauses
  · exact ensures_pure (by simpa [Column.var] using hclauses)

variable (ok) in
theorem only_importParent : Ensures (AllOnly ok) (importParent ctx) := by
  unfold importParent
  split
  · exact ensures_pure allOnly_nil
  · exact ensures_skip _ fun parent => ensures_pure (by simp [Column.var])

theorem only_measureCall {scope : Scope} (h : scope.sites ⊆ sites) {m : Measure}
    (hm : m.sites ⊆ sites) (result : String) :
    Ensures (Clause.Only (Served sites)) (measureCall ctx scope m result) := by
  refine ensures_skip _ fun imports => (only_scopeMatch h).bind fun found hfound => ?_
  refine (ensures_lift fun reduced hreduced => only_measured hm hreduced).bind
    fun reduced hreduced => ?_
  exact ensures_pure (by simp [hfound, hreduced])

/-- Calls with the entries that name their results. -/
def OnlyEntries (ok : Access → Prop) (r : List Clause × List (String × Expr)) : Prop :=
  AllOnly ok r.1 ∧ ∀ entry ∈ r.2, entry.2.Only ok

theorem onlyEntries_nil : OnlyEntries ok ([], []) := ⟨allOnly_nil, by simp⟩

theorem OnlyEntries.cons (calls : List Clause) {e : Expr}
    {r : List Clause × List (String × Expr)} (hcalls : AllOnly ok calls) (he : e.Only ok)
    (hr : OnlyEntries ok r) (key : String) : OnlyEntries ok (calls ++ r.1, (key, e) :: r.2) :=
  ⟨allOnly_append.mpr ⟨hcalls, hr.1⟩, List.forall_mem_cons.mpr ⟨he, hr.2⟩⟩

mutual
theorem only_aggregateEntry {call : Measure → String → Build Clause}
    (hcall : ∀ m name, m.sites ⊆ sites → Ensures (Clause.Only (Served sites)) (call m name))
    (item : AggregateItem) (h : item.sites ⊆ sites) :
    Ensures (fun r => AllOnly (Served sites) r.1 ∧ r.2.2.Only (Served sites))
      (aggregateEntry call item) := by
  match item with
  | .measure key m =>
    refine ensures_skip _ fun name => (hcall m name h).bind fun clause hclause => ensures_pure ?_
    exact ⟨by simpa using hclause, only_var name⟩
  | .group key items =>
    exact (only_aggregateEntries hcall items h).bind fun r hr =>
      ensures_pure ⟨hr.1, only_map.mpr hr.2⟩
  | .typename key typeName => exact ensures_pure ⟨allOnly_nil, only_literal _⟩
theorem only_aggregateEntries {call : Measure → String → Build Clause}
    (hcall : ∀ m name, m.sites ⊆ sites → Ensures (Clause.Only (Served sites)) (call m name))
    (items : List AggregateItem) (h : AggregateItem.sitesOf items ⊆ sites) :
    Ensures (OnlyEntries (Served sites)) (aggregateEntries call items) := by
  match items with
  | [] => exact ensures_pure onlyEntries_nil
  | item :: rest =>
    obtain ⟨hfirst, hrest⟩ := List.append_subset.mp h
    refine (only_aggregateEntry hcall item hfirst).bind fun first hfirst => ?_
    exact (only_aggregateEntries hcall rest hrest).bind fun more hmore =>
      ensures_pure (OnlyEntries.cons _ hfirst.1 hfirst.2 hmore _)
end

theorem only_aggregateClauses {a : Aggregate} (h : (Part.aggregate a).sites ⊆ sites) :
    Ensures (AllOnly (Served sites)) (aggregateClauses ctx a) := by
  obtain ⟨hscope, hitems⟩ := List.append_subset.mp h
  refine (only_aggregateEntries (fun m name hm => only_measureCall hscope hm name) a.items
    hitems).bind fun r hr => ensures_pure (allOnly_append.mpr ⟨hr.1, ?_⟩)
  simpa using hr.2

theorem only_sortValues {sort : List SortKey} (h : sortSites sort ⊆ sites) :
    Ensures (fun r => AllOnly (Served sites) r.1 ∧
      ∀ key ∈ r.2, key.expression.Only (Served sites)) (sortValues ctx sort) := by
  induction sort with
  | nil => exact ensures_pure ⟨allOnly_nil, by simp⟩
  | cons key rest ih =>
    obtain ⟨hfirst, hrest⟩ := List.append_subset.mp h
    have hvalue : Ensures (fun r => AllOnly (Served sites) r.1 ∧ r.2.Only (Served sites))
        (sortValue ctx key) := by
      unfold sortValue
      split
      · rename_i a htarget
        have hsite : (⟨.sort, false, a⟩ : Site) ∈ key.target.sites := by
          rw [htarget]
          exact List.mem_cons_self
        exact ensures_pure ⟨allOnly_nil, served_read (hfirst hsite) nofun _⟩
      · rename_i a htarget
        have hsite : (⟨.sort, true, a⟩ : Site) ∈ key.target.sites := by
          rw [htarget]
          exact List.mem_cons_self
        exact ensures_skip _ fun edge =>
          ensures_pure ⟨allOnly_nil, served_read (hfirst hsite) nofun _⟩
      · refine ensures_skip _ fun name => ?_
        refine (only_computedCall (Served sites) _ name).bind fun call hcall => ?_
        exact ensures_pure ⟨by simpa using hcall, only_var name⟩
    refine hvalue.bind fun first hfirst => (ih hrest).bind fun more hmore => ensures_pure ⟨?_, ?_⟩
    · exact allOnly_append.mpr ⟨hfirst.1, hmore.1⟩
    · exact List.forall_mem_cons.mpr ⟨hfirst.2, hmore.2⟩

theorem only_orderedWindow {sort : List SortKey} (h : sortSites sort ⊆ sites) {b : Bounds}
    (hb : b.All (Expr.Only (Served sites))) :
    Ensures (AllOnly (Served sites)) (orderedWindow ctx sort b) := by
  unfold orderedWindow
  split
  · exact ensures_pure allOnly_nil
  · refine (only_sortValues h).bind fun r hr => ensures_pure ?_
    simpa using ⟨hr.1, hr.2, hb.skip, hb.limit⟩

theorem only_arranged {sort : List SortKey} (h : sortSites sort ⊆ sites) (page : Page) :
    Ensures (AllOnly (Served sites)) (arranged ctx sort page) := by
  unfold arranged
  split
  · exact ensures_pure allOnly_nil
  · exact (ensures_bounds (P := Expr.Only (Served sites)) only_param page).bind fun b hb =>
      only_orderedWindow h hb

end Scopes

end GraphSelection.Program
