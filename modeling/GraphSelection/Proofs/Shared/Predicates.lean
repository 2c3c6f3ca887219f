import GraphSelection.Proofs.Minting
import GraphSelection.Proofs.Runs
import GraphSelection.Proofs.Shared.Leaves
import Mathlib.Data.List.Nodup

/-!
Predicates and the calls they depend on. What is known while a scope is built is what has been made
in it, one call for each key under a name of its own. A leaf finds the call of its key or makes one,
so the variables that a predicate reads stand for its leaves, one by one.
-/
namespace GraphSelection.Cypher

mutual
/-- The variables whose values an expression reads, in order. A variable that only a property is
read of does not count, and blocks have variables of their own. -/
def Expr.values : Expr → List String
  | .var name => [name]
  | .param _ => []
  | .literal _ => []
  | .property _ _ => []
  | .binary left _ right => left.values ++ right.values
  | .all items => Expr.valuesOf items
  | .any items => Expr.valuesOf items
  | .not inner => inner.values
  | .isNull inner => inner.values
  | .isNotNull inner => inner.values
  | .apply _ args => Expr.valuesOf args
  | .distinct inner => inner.values
  | .hasLabels _ _ => []
  | .map entries => Expr.valuesOfEntries entries
  | .projection _ items => Expr.valuesOfProjection items
  | .list items => Expr.valuesOf items
  | .choice condition result otherwise =>
      condition.values ++ result.values ++ otherwise.values
  | .comprehension name source body => source.values ++ body.values.filter (· ≠ name)
  | .existsIn _ => []
  | .countIn _ => []
  | .star => []
def Expr.valuesOf : List Expr → List String
  | [] => []
  | e :: rest => e.values ++ Expr.valuesOf rest
def Expr.valuesOfEntries : List (String × Expr) → List String
  | [] => []
  | (_, e) :: rest => e.values ++ Expr.valuesOfEntries rest
def Expr.valuesOfProjection : List (MapItem Expr) → List String
  | [] => []
  | .own _ :: rest => Expr.valuesOfProjection rest
  | .entry _ e :: rest => e.values ++ Expr.valuesOfProjection rest
end

namespace Expr

attribute [local simp] values valuesOf

@[simp] theorem valuesOf_append (es es' : List Expr) :
    valuesOf (es ++ es') = valuesOf es ++ valuesOf es' := by
  induction es with
  | nil => rfl
  | cons e rest ih => simp [ih]

theorem valuesOf_flatMap {f : Expr → List Expr} (h : ∀ e, valuesOf (f e) = e.values)
    (es : List Expr) : valuesOf (es.flatMap f) = valuesOf es := by
  induction es with
  | nil => rfl
  | cons e rest ih => simp [h, ih]

theorem valuesOf_conjuncts (e : Expr) : valuesOf e.conjuncts = e.values := by
  unfold conjuncts
  split
  · simp
  · simp

theorem valuesOf_disjuncts (e : Expr) : valuesOf e.disjuncts = e.values := by
  unfold disjuncts
  split
  · simp
  · simp

theorem valuesOf_allOf (es : List Expr) : valuesOf (allOf es).toList = valuesOf es := by
  have hflat := valuesOf_flatMap valuesOf_conjuncts es
  unfold allOf
  split
  · rename_i heq
    rw [← hflat, heq]
    rfl
  · rename_i e heq
    rw [← hflat, heq]
    rfl
  · rw [← hflat]
    simp

theorem valuesOf_anyOf (es : List Expr) : valuesOf (anyOf es).toList = valuesOf es := by
  have hflat := valuesOf_flatMap valuesOf_disjuncts es
  unfold anyOf
  split
  · rename_i heq
    rw [← hflat, heq]
    rfl
  · rename_i e heq
    rw [← hflat, heq]
    rfl
  · rw [← hflat]
    simp

theorem values_getD (o : Option Expr) (b : Bool) :
    (o.getD (.bool b)).values = valuesOf o.toList := by
  cases o with
  | none => simp [Expr.bool]
  | some e => simp

end Expr

end GraphSelection.Cypher

namespace GraphSelection.Program

open GraphSelection Cypher Plan Minting

section Leaves

/-- The leaves of a subject: a computed attribute needs a call. -/
def Subject.leaves : Subject → List Leaf
  | .computed a => [.computed a]
  | .node _ | .edge _ | .claim _ _ => []

mutual
/-- The leaves that a condition has in its own scope, in order. What is asked of related nodes is in
a scope of its own. -/
def Condition.leaves : Condition → List Leaf
  | .all items => Condition.leavesOf items
  | .any items => Condition.leavesOf items
  | .not inner => Condition.leaves inner
  | .compare subject _ _ _ => Subject.leaves subject
  | .nullness subject _ => Subject.leaves subject
  | .labels _ => []
  | .related _ _ _ _ _ => []
  | .aggregation a => [.aggregation a]
  | .authenticated => []
def Condition.leavesOf : List Condition → List Leaf
  | [] => []
  | c :: rest => Condition.leaves c ++ Condition.leavesOf rest
end

def Condition.optionLeaves : Option Condition → List Leaf
  | none => []
  | some c => Condition.leaves c

/-- The leaves of all constituents. -/
def Condition.alternativeLeaves (targets : List (Entity × Option Condition)) : List Leaf :=
  targets.flatMap fun target => Condition.optionLeaves target.2

/-- The leaves of the first target, the only one where a target is no composite. -/
def Condition.firstLeaves : List (Entity × Option Condition) → List Leaf
  | [] => []
  | (_, c) :: _ => Condition.optionLeaves c

end Leaves

/-- What is built together, with one set of known calls. -/
inductive FilterScope where
  /-- The filter of a match; a validation is built like a filter. -/
  | whole (c : Option Condition)
  /-- What is asked of related nodes: all constituents of a composite share their calls with one
  another and with what is asked of the edge. -/
  | related (targets : List (Entity × Option Condition)) (isComposite : Bool)
      (edge : Option Condition)

namespace FilterScope

def leaves : FilterScope → List Leaf
  | .whole c => Condition.optionLeaves c
  | .related targets true edge =>
      Condition.alternativeLeaves targets ++ Condition.optionLeaves edge
  | .related targets false edge => Condition.firstLeaves targets ++ Condition.optionLeaves edge

/-- The predicates of a scope. -/
def build (ctx : Context) : FilterScope → Predicate (List Expr)
  | .whole c => Condition.optionPredicate ctx c
  | .related targets isComposite edge => do
      let targetParts ←
        if isComposite then do
          let alternatives ← Condition.alternatives ctx targets
          pure [(Expr.anyOf alternatives).getD (.bool false)]
        else Condition.firstTarget ctx targets
      let edgeParts ← Condition.optionPredicate ctx edge
      pure (targetParts ++ edgeParts)

/-- The block of a condition on related nodes is built around one scope. -/
theorem block (ctx : Context) (relationship : Relationship) (quantifier : Quantifier)
    (targets : List (Entity × Option Condition)) (isComposite : Bool) (edge : Option Condition) :
    Condition.predicate ctx (.related relationship quantifier targets isComposite edge) = (do
      let edgeName ← (fresh "this" : Build String)
      let node ← (fresh "this" : Build String)
      let pattern := traversal ctx.subject relationship edgeName
        (NodePattern.named node (targetLabels isComposite targets))
      let (parts, calls) ← (gathered ((related targets isComposite edge).build
        (ctx.enter node (some edgeName) ctx.result)) : Build (List Expr × List Clause))
      return quantified quantifier pattern calls (Expr.allOf parts)) := by
  rw [Condition.predicate]
  rfl

end FilterScope

/-- A supply that others have drawn from since. -/
structure Later (s t : Supply) : Prop where
  next : s.next ≤ t.next
  params : s.params <+: t.params

namespace Later

theorem refl (s : Supply) : Later s s := ⟨Nat.le_refl _, List.prefix_rfl⟩

theorem trans {s t u : Supply} (h : Later s t) (h' : Later t u) : Later s u :=
  ⟨Nat.le_trans h.next h'.next, h.params.trans h'.params⟩

theorem fresh {hint x : String} {s t : Supply} (h : fresh hint s = .ok (x, t)) : Later s t := by
  obtain ⟨_, rfl⟩ := (fresh_ok ..).mp h
  exact ⟨Nat.le_succ _, List.prefix_rfl⟩

theorem param {value : Doc} {e : Expr} {s t : Supply} (h : param value s = .ok (e, t)) :
    Later s t := by
  obtain ⟨_, rfl⟩ := (param_ok ..).mp h
  exact ⟨Nat.le_succ _, List.prefix_append ..⟩

end Later

section Calls

/-- The call of a leaf. -/
def Leaf.call (ctx : Context) : Leaf → String → Build Clause
  | .computed a => computedCall ctx a
  | .aggregation a => aggregationCall ctx a

theorem computedCall_calls {ctx : Context} {a : Attribute} {result : String} {clause : Clause}
    {s t : Supply} (h : computedCall ctx a result s = .ok (clause, t)) :
    Later s t ∧ Leaf.Calls ctx.subject t.params (.computed a) result clause := by
  cases hcomputation : a.computation with
  | none =>
    simp only [computedCall, hcomputation, fail_ok] at h
  | some c =>
    simp only [computedCall, hcomputation, bind_ok, pure_ok] at h
    obtain ⟨column, _, hcolumn, rfl, rfl⟩ := h
    exact ⟨.fresh hcolumn, .computed hcomputation column result⟩

theorem aggregationCall_calls {ctx : Context} {a : Aggregation} {result : String}
    {clause : Clause} {s t : Supply} (h : aggregationCall ctx a result s = .ok (clause, t)) :
    Later s t ∧ Leaf.Calls ctx.subject t.params (.aggregation a) result clause := by
  simp only [aggregationCall, typedParam, bind_ok, pure_ok, lift_ok] at h
  obtain ⟨edge, _, hedge, node, _, hnode, ⟨before, reduced⟩, _, ⟨hmeasured, rfl⟩, right, _,
    ⟨p, _, hparam, rfl, rfl⟩, rfl, rfl⟩ := h
  have hlater := ((Later.fresh hedge).trans (.fresh hnode)).trans (.param hparam)
  obtain ⟨rfl, rfl⟩ := (param_ok ..).mp hparam
  exact ⟨hlater, .aggregation edge node hmeasured (by simp) rfl result⟩

theorem Leaf.call_calls {ctx : Context} {leaf : Leaf} {result : String} {clause : Clause}
    {s t : Supply} (h : leaf.call ctx result s = .ok (clause, t)) :
    Later s t ∧ leaf.Calls ctx.subject t.params result clause := by
  cases leaf with
  | computed a => exact computedCall_calls h
  | aggregation a => exact aggregationCall_calls h

/-- A call that was made for a leaf, and the variable it gives. -/
structure Made where
  leaf : Leaf
  name : String
  clause : Clause

/-- What is known in a scope is what has been made in it: for each key one call, under a name of its
own. -/
structure Known (subject : String) (q : Subqueries) (s : Supply) (made : List Made) : Prop where
  known : q.known = made.map fun m => (m.leaf.key subject, m.name)
  calls : q.calls = made.map Made.clause
  own : ∀ m ∈ made, m.leaf.Calls subject s.params m.name m.clause
  keys : (made.map fun m => m.leaf.key subject).Nodup
  names : (made.map Made.name).Nodup
  older : ∀ m ∈ made, Older s.next m.name

variable {subject : String} {q r r' : Subqueries} {s t t' : Supply} {made added more : List Made}

theorem Known.start (subject : String) (s : Supply) : Known subject {} s [] where
  known := rfl
  calls := rfl
  own := by simp
  keys := List.nodup_nil
  names := List.nodup_nil
  older := by simp

theorem Known.later (h : Known subject q s made) (hlater : Later s t) :
    Known subject q t made where
  known := h.known
  calls := h.calls
  own m hm := (h.own m hm).mono hlater.params
  keys := h.keys
  names := h.names
  older m hm := (h.older m hm).mono hlater.next

/-- The variable stands for the leaf: it was given to a call under the key of the leaf. -/
def StandsFor (subject : String) (made : List Made) (leaf : Leaf) (x : String) : Prop :=
  ∃ m ∈ made, m.leaf.key subject = leaf.key subject ∧ m.name = x

theorem StandsFor.append {leaf : Leaf} {x : String} (h : StandsFor subject made leaf x)
    (more : List Made) : StandsFor subject (made ++ more) leaf x := by
  obtain ⟨m, hm, hkey, hname⟩ := h
  exact ⟨m, List.mem_append_left _ hm, hkey, hname⟩

/-- Variables tell leaves apart just as keys do. -/
theorem StandsFor.eq_iff (hknown : Known subject q s made) {leaf leaf' : Leaf} {x x' : String}
    (h : StandsFor subject made leaf x) (h' : StandsFor subject made leaf' x') :
    x = x' ↔ leaf.key subject = leaf'.key subject := by
  obtain ⟨m, hm, hkey, rfl⟩ := h
  obtain ⟨m', hm', hkey', rfl⟩ := h'
  constructor
  · intro hname
    have hsame := List.inj_on_of_nodup_map hknown.names hm hm' hname
    rw [← hkey, ← hkey', hsame]
  · intro heq
    have hkeys : m.leaf.key subject = m'.leaf.key subject := by rw [hkey, hkey', heq]
    rw [List.inj_on_of_nodup_map hknown.keys hm hm' hkeys]

/-- What a step of building has done: calls for some of its leaves were added to those made before,
and the variables that it reads stand for its leaves. -/
structure Adds (subject : String) (leaves : List Leaf) (xs : List String) (made : List Made)
    (s : Supply) (r : Subqueries) (t : Supply) (added : List Made) : Prop where
  later : Later s t
  known : Known subject r t (made ++ added)
  among : ∀ m ∈ added, m.leaf ∈ leaves
  reads : List.Forall₂ (StandsFor subject (made ++ added)) leaves xs

theorem Adds.append {leaves leaves' : List Leaf} {xs xs' : List String}
    (h : Adds subject leaves xs made s r t added)
    (h' : Adds subject leaves' xs' (made ++ added) t r' t' more) :
    Adds subject (leaves ++ leaves') (xs ++ xs') made s r' t' (added ++ more) where
  later := h.later.trans h'.later
  known := by
    rw [← List.append_assoc]
    exact h'.known
  among m hm := by
    rcases List.mem_append.mp hm with hm | hm
    · exact List.mem_append_left _ (h.among m hm)
    · exact List.mem_append_right _ (h'.among m hm)
  reads := by
    rw [← List.append_assoc]
    exact List.rel_append (h.reads.imp fun _ _ hx => hx.append more) h'.reads

/-- A step without leaves. -/
theorem Adds.still (h : Known subject q s made) (hlater : Later s t) :
    Adds subject [] [] made s q t [] where
  later := hlater
  known := by
    rw [List.append_nil]
    exact h.later hlater
  among := by simp
  reads := .nil

/-- A leaf whose key is not known adds its own call. -/
theorem Adds.new {ctx : Context} {leaf : Leaf} {clause : Clause}
    (h : Known ctx.subject q s made) (hnew : q.known.get? (leaf.key ctx.subject) = none)
    (hcall : leaf.call ctx (s.name "var") { s with next := s.next + 1 } = .ok (clause, t)) :
    Adds ctx.subject [leaf] [s.name "var"] made s
      { known := q.known ++ [(leaf.key ctx.subject, s.name "var")], calls := q.calls ++ [clause] }
      t [⟨leaf, s.name "var", clause⟩] := by
  have hdrawn : Later s { s with next := s.next + 1 } := ⟨Nat.le_succ _, List.prefix_rfl⟩
  obtain ⟨hcalled, hcalls⟩ := Leaf.call_calls hcall
  have hlater := hdrawn.trans hcalled
  have hnewKey : ∀ m ∈ made, m.leaf.key ctx.subject ≠ leaf.key ctx.subject := by
    intro m hm heq
    have hnone := List.lookup_eq_none_iff.mp hnew (m.leaf.key ctx.subject, m.name)
      (h.known ▸ List.mem_map.mpr ⟨m, hm, rfl⟩)
    simp [heq] at hnone
  have hnewName : ∀ m ∈ made, m.name ≠ s.name "var" := fun m hm =>
    ((h.older m hm).ne_name s (Nat.le_refl _) "var" (by decide)).symm
  refine ⟨hlater, ⟨?_, ?_, ?_, ?_, ?_, ?_⟩, ?_, ?_⟩
  · simp [h.known]
  · simp [h.calls]
  · intro m hm
    rcases List.mem_append.mp hm with hm | hm
    · exact (h.later hlater).own m hm
    · exact List.mem_singleton.mp hm ▸ hcalls
  · rw [List.map_append, List.nodup_append]
    refine ⟨h.keys, List.pairwise_singleton .., ?_⟩
    simpa using hnewKey
  · rw [List.map_append, List.nodup_append]
    refine ⟨h.names, List.pairwise_singleton .., ?_⟩
    simpa using hnewName
  · intro m hm
    rcases List.mem_append.mp hm with hm | hm
    · exact (h.later hlater).older m hm
    · rw [List.mem_singleton.mp hm]
      exact (older_name s "var" (by decide)).mono hcalled.next
  · simp
  · exact .cons ⟨_, List.mem_append_right _ (List.mem_singleton_self _), rfl, rfl⟩ .nil

/-- A leaf finds the call of its key, or adds it. -/
theorem Adds.shared {ctx : Context} {leaf : Leaf} {name : String}
    (hmade : Known ctx.subject q s made)
    (h : shared (leaf.key ctx.subject) (leaf.call ctx) q s = .ok ((name, r), t)) :
    ∃ added, Adds ctx.subject [leaf] [name] made s r t added := by
  cases hknown : q.known.get? (leaf.key ctx.subject) with
  | some found =>
    simp only [Program.shared, predicate_bind_ok, predicate_get_ok] at h
    obtain ⟨_, _, _, ⟨rfl, rfl, rfl⟩, h⟩ := h
    simp only [hknown, predicate_pure_ok] at h
    obtain ⟨rfl, rfl, rfl⟩ := h
    have hmem := Entries.mem_of_get? hknown
    rw [hmade.known, List.mem_map] at hmem
    obtain ⟨m, hm, heq⟩ := hmem
    obtain ⟨hkey, hname⟩ := Prod.mk.inj heq
    have hstands : StandsFor ctx.subject (made ++ []) leaf found :=
      StandsFor.append ⟨m, hm, hkey, hname⟩ []
    exact ⟨[], .refl _, by rwa [List.append_nil], by simp, .cons hstands .nil⟩
  | none =>
    rcases shared_ok _ _ _ _ _ _ _ h with ⟨hfound, _, _⟩ | ⟨clause, rfl, hcall, rfl⟩
    · rw [hknown] at hfound
      cases hfound
    · exact ⟨_, .new hmade hknown hcall⟩

end Calls

/-- A step of building reads the variables of its leaves after those that it was given. -/
structure Serves {α : Type} (subject : String) (leaves : List Leaf) (given : List String)
    (vars : α → List String) (x : Predicate α) : Prop where
  run : ∀ made q s a r t, Known subject q s made → x q s = .ok ((a, r), t) →
    ∃ xs added, vars a = given ++ xs ∧ Adds subject leaves xs made s r t added

namespace Serves

variable {α β : Type} {subject : String} {leaves leaves' : List Leaf} {given : List String}
  {vars : α → List String} {vars' : β → List String}

theorem pure {a : α} (h : vars a = given) : Serves subject [] given vars (pure a) := by
  constructor
  intro made q s b r t hknown hrun
  obtain ⟨rfl, rfl, rfl⟩ := (predicate_pure_ok ..).mp hrun
  exact ⟨[], [], by rw [h, List.append_nil], .still hknown (.refl s)⟩

theorem bind {x : Predicate α} {f : α → Predicate β} (hx : Serves subject leaves given vars x)
    (hf : ∀ a, Serves subject leaves' (vars a) vars' (f a)) :
    Serves subject (leaves ++ leaves') given vars' (x >>= f) := by
  constructor
  intro made q s b r t hknown hrun
  obtain ⟨a, q', u, hfirst, hsecond⟩ := (predicate_bind_ok ..).mp hrun
  obtain ⟨xs, added, ha, hadds⟩ := hx.run _ _ _ _ _ _ hknown hfirst
  obtain ⟨ys, more, hb, hmore⟩ := (hf a).run _ _ _ _ _ _ hadds.known hsecond
  exact ⟨xs ++ ys, added ++ more, by rw [hb, ha, List.append_assoc], hadds.append hmore⟩

/-- A step that only wraps what was built. -/
theorem last {x : Predicate α} {g : α → β} (hx : Serves subject leaves given vars x)
    (h : ∀ a, vars' (g a) = vars a) :
    Serves subject leaves given vars' (x >>= fun a => Pure.pure (g a)) := by
  have hboth : Serves subject (leaves ++ []) given vars' (x >>= fun a => Pure.pure (g a)) :=
    hx.bind fun a => pure (h a)
  rwa [List.append_nil] at hboth

/-- A step that needs no call. -/
theorem lift {x : Build α} (h : ∀ s a t, x s = .ok (a, t) → Later s t ∧ vars a = given) :
    Serves subject [] given vars (liftM x : Predicate α) := by
  constructor
  intro made q s a r t hknown hrun
  obtain ⟨hbuilt, rfl⟩ := (predicate_lift_ok ..).mp hrun
  obtain ⟨hlater, ha⟩ := h s a t hbuilt
  exact ⟨[], [], by rw [ha, List.append_nil], .still hknown hlater⟩

theorem shared {ctx : Context} (leaf : Leaf) :
    Serves ctx.subject [leaf] given (fun name => given ++ [name])
      (Program.shared (leaf.key ctx.subject) (leaf.call ctx)) := by
  constructor
  intro made q s name r t hknown hrun
  obtain ⟨added, hadds⟩ := Adds.shared hknown hrun
  exact ⟨[name], added, rfl, hadds⟩

end Serves

section Predicates

variable {ctx : Context} {given : List String}

/-- The variables of a side of a comparison. -/
def sideValues (side : List Expr × Expr) : List String :=
  Expr.valuesOf side.1 ++ side.2.values

theorem claimParam_later {value : Option Doc} {side : List Expr × Expr} {s t : Supply}
    (h : claimParam value s = .ok (side, t)) : Later s t ∧ sideValues side = [] := by
  simp only [claimParam, bind_ok, pure_ok] at h
  obtain ⟨p, _, hparam, rfl, rfl⟩ := h
  obtain ⟨rfl, _⟩ := (param_ok ..).mp hparam
  exact ⟨.param hparam, rfl⟩

theorem operandExpr_later {kind : Option ScalarKind} {op : Comparison} {operand : Operand}
    {side : List Expr × Expr} {s t : Supply} (h : operandExpr kind op operand s = .ok (side, t)) :
    Later s t ∧ sideValues side = [] := by
  cases operand with
  | claim path value => exact claimParam_later h
  | literal value =>
    by_cases hop : op = .isIn
    · simp only [operandExpr, hop, ↓reduceIte, typedListParam, bind_ok, pure_ok] at h
      obtain ⟨_, _, ⟨p, _, hparam, rfl, rfl⟩, rfl, rfl⟩ := h
      obtain ⟨rfl, _⟩ := (param_ok ..).mp hparam
      refine ⟨.param hparam, ?_⟩
      unfold constructEach
      split <;> simp [sideValues, Expr.values, Expr.valuesOf]
    · simp only [operandExpr, hop, ↓reduceIte, typedParam, bind_ok, pure_ok] at h
      obtain ⟨_, _, ⟨p, _, hparam, rfl, rfl⟩, rfl, rfl⟩ := h
      obtain ⟨rfl, _⟩ := (param_ok ..).mp hparam
      refine ⟨.param hparam, ?_⟩
      unfold construct
      split <;> simp [sideValues, Expr.values, Expr.valuesOf]

theorem serves_subjectExpr (subject : Subject) :
    Serves ctx.subject (Subject.leaves subject) given (fun side => given ++ sideValues side)
      (subjectExpr ctx subject) := by
  cases subject with
  | node a => exact .pure (List.append_nil _)
  | edge a =>
    have hedge : Serves ctx.subject [] given (fun _ => given)
        (liftM (liftM ctx.edge : Build String) : Predicate String) := by
      refine .lift fun s name t h => ?_
      obtain ⟨_, rfl⟩ := (lift_ok ..).mp h
      exact ⟨.refl _, rfl⟩
    exact hedge.last fun name => List.append_nil _
  | computed a =>
    exact Serves.last (Serves.shared (.computed a)) fun name => rfl
  | claim path value =>
    refine .lift fun s side t h => ?_
    obtain ⟨hlater, hside⟩ := claimParam_later h
    exact ⟨hlater, by rw [hside, List.append_nil]⟩

theorem values_lowered (caseInsensitive : Bool) (e : Expr) :
    (lowered caseInsensitive e).values = e.values := by
  unfold lowered
  split
  · simp only [Expr.values, Expr.valuesOf, List.append_nil]
  · rfl

theorem values_comparison {op : Comparison} {left right : Expr} (h : right.values = []) :
    (comparison op left right).values = left.values := by
  cases op <;> simp [comparison, Expr.values, h]

theorem serves_comparePredicate (subject : Subject) (op : Comparison) (operand : Operand)
    (caseInsensitive : Bool) :
    Serves ctx.subject (Subject.leaves subject) given (fun e => given ++ e.values)
      (comparePredicate ctx subject op operand caseInsensitive) := by
  have hright : ∀ left : List Expr × Expr, Serves ctx.subject [] (given ++ sideValues left)
      (fun e => given ++ e.values) (do
        let right ← (operandExpr subject.kind? op operand : Build (List Expr × Expr))
        let test := comparison op (lowered caseInsensitive left.2)
          (lowered caseInsensitive right.2)
        return (Expr.allOf (left.1 ++ right.1 ++ [test])).getD (.bool true)) := by
    intro left
    constructor
    intro made q s e r t hknown hrun
    simp only [predicate_bind_ok, predicate_lift_ok, predicate_pure_ok] at hrun
    obtain ⟨right, _, _, ⟨hoperand, rfl⟩, rfl, rfl, rfl⟩ := hrun
    obtain ⟨hlater, hside⟩ := operandExpr_later hoperand
    obtain ⟨hguards, hvalues⟩ := List.append_eq_nil_iff.mp hside
    refine ⟨[], [], ?_, .still hknown hlater⟩
    have htest : (comparison op (lowered caseInsensitive left.2)
        (lowered caseInsensitive right.2)).values = left.2.values := by
      rw [values_comparison (by rw [values_lowered, hvalues]), values_lowered]
    rw [Expr.values_getD, Expr.valuesOf_allOf, Expr.valuesOf_append, Expr.valuesOf_append, hguards]
    simp [Expr.valuesOf, htest, sideValues]
  have hboth : Serves ctx.subject (Subject.leaves subject ++ []) given (fun e => given ++ e.values)
      (comparePredicate ctx subject op operand caseInsensitive) :=
    (serves_subjectExpr subject).bind hright
  rwa [List.append_nil] at hboth

/-- The guards of a subject read no variable. -/
theorem subject_guards {subject : Subject} {side : List Expr × Expr} {q r : Subqueries}
    {s t : Supply} (h : subjectExpr ctx subject q s = .ok ((side, r), t)) :
    Expr.valuesOf side.1 = [] := by
  cases subject with
  | node a =>
    obtain ⟨rfl, _⟩ := (predicate_pure_ok ..).mp h
    rfl
  | edge a =>
    simp only [subjectExpr, predicate_bind_ok, predicate_pure_ok] at h
    obtain ⟨_, _, _, _, rfl, _⟩ := h
    rfl
  | computed a =>
    simp only [subjectExpr, predicate_bind_ok, predicate_pure_ok] at h
    obtain ⟨_, _, _, _, rfl, _⟩ := h
    rfl
  | claim path value =>
    obtain ⟨hclaim, _⟩ := (predicate_lift_ok ..).mp h
    exact (List.append_eq_nil_iff.mp (claimParam_later hclaim).2).1

theorem serves_nullness (subject : Subject) (isNull : Bool) :
    Serves ctx.subject (Subject.leaves subject) given (fun e => given ++ e.values)
      (Condition.predicate ctx (.nullness subject isNull)) := by
  have hvalues : ∀ e : Expr,
        (if isNull then Expr.isNull e else .isNotNull e).values = e.values := by
    intro e
    split <;> rw [Expr.values]
  constructor
  intro made q s e r t hknown hrun
  simp only [Condition.predicate, predicate_bind_ok, predicate_pure_ok] at hrun
  obtain ⟨side, _, _, hside, rfl, rfl, rfl⟩ := hrun
  have hserves : Serves ctx.subject (Subject.leaves subject) given
      (fun side => given ++ sideValues side) (subjectExpr ctx subject) := serves_subjectExpr subject
  obtain ⟨xs, added, hxs, hadds⟩ := hserves.run _ _ _ _ _ _ hknown hside
  refine ⟨xs, added, ?_, hadds⟩
  rw [hvalues, ← hxs, sideValues, subject_guards hside, List.nil_append]

theorem values_quantified (q : Quantifier) (pattern : Pattern) (calls : List Clause)
    (predicate : Option Expr) : (quantified q pattern calls predicate).values = [] := by
  cases q <;> cases predicate <;>
    simp [quantified, Expr.equals, Expr.int, Expr.values, Expr.valuesOf]

/-- A list of alternatives or a first target, with the condition on the edge after it. -/
theorem serves_related {targets : List (Entity × Option Condition)} {isComposite : Bool}
    {edge : Option Condition}
    (halternatives : Serves ctx.subject (Condition.alternativeLeaves targets) given
      (fun es => given ++ Expr.valuesOf es) (Condition.alternatives ctx targets))
    (hfirst : Serves ctx.subject (Condition.firstLeaves targets) given
      (fun es => given ++ Expr.valuesOf es) (Condition.firstTarget ctx targets))
    (hedge : ∀ given, Serves ctx.subject (Condition.optionLeaves edge) given
      (fun es => given ++ Expr.valuesOf es) (Condition.optionPredicate ctx edge)) :
    Serves ctx.subject (FilterScope.related targets isComposite edge).leaves given
      (fun es => given ++ Expr.valuesOf es)
      ((FilterScope.related targets isComposite edge).build ctx) := by
  have hrest : ∀ parts : List Expr, Serves ctx.subject (Condition.optionLeaves edge)
      (given ++ Expr.valuesOf parts) (fun es => given ++ Expr.valuesOf es) (do
        let edgeParts ← Condition.optionPredicate ctx edge
        pure (parts ++ edgeParts)) :=
    fun parts => (hedge _).last fun more => by rw [Expr.valuesOf_append, List.append_assoc]
  cases isComposite with
  | false => exact hfirst.bind hrest
  | true =>
    refine halternatives.bind fun alternatives => ?_
    have hone : Expr.valuesOf [(Expr.anyOf alternatives).getD (.bool false)] =
        Expr.valuesOf alternatives := by
      rw [Expr.valuesOf, Expr.values_getD, Expr.valuesOf_anyOf, Expr.valuesOf, List.append_nil]
    rw [← hone]
    exact hrest _

/-- A block has a scope of its own and takes nothing from the scope around it. -/
theorem serves_block (ctx : Context) (given : List String) (relationship : Relationship)
    (quantifier : Quantifier) {targets : List (Entity × Option Condition)} {isComposite : Bool}
    {edge : Option Condition}
    (halternatives : ∀ ctx given, Serves ctx.subject (Condition.alternativeLeaves targets) given
      (fun es => given ++ Expr.valuesOf es) (Condition.alternatives ctx targets))
    (hfirst : ∀ ctx given, Serves ctx.subject (Condition.firstLeaves targets) given
      (fun es => given ++ Expr.valuesOf es) (Condition.firstTarget ctx targets))
    (hedge : ∀ ctx given, Serves ctx.subject (Condition.optionLeaves edge) given
      (fun es => given ++ Expr.valuesOf es) (Condition.optionPredicate ctx edge)) :
    Serves ctx.subject [] given (fun e => given ++ e.values)
      (Condition.predicate ctx
        (.related relationship quantifier targets isComposite edge)) := by
  constructor
  intro made q s e r t hknown hrun
  simp only [FilterScope.block, predicate_bind_ok, predicate_lift_ok, predicate_pure_ok] at hrun
  obtain ⟨edgeName, _, _, ⟨hedgeName, rfl⟩, node, _, _, ⟨hnode, rfl⟩, ⟨parts, calls⟩, _, _,
    ⟨hgathered, rfl⟩, rfl, rfl, rfl⟩ := hrun
  obtain ⟨q', hblock, _⟩ := (gathered_ok ..).mp hgathered
  obtain ⟨_, _, _, hadds⟩ := (serves_related (halternatives _ []) (hfirst _ []) (hedge _)).run
    [] _ _ _ _ _ (.start _ _) hblock
  refine ⟨[], [], by rw [values_quantified], .still hknown ?_⟩
  exact ((Later.fresh hedgeName).trans (.fresh hnode)).trans hadds.later

mutual
theorem serves_predicate (ctx : Context) (given : List String) (c : Condition) :
    Serves ctx.subject (Condition.leaves c) given (fun e => given ++ e.values)
      (Condition.predicate ctx c) := by
  match c with
  | .all items =>
    refine (serves_predicates ctx given items).last fun es => ?_
    rw [Expr.values_getD, Expr.valuesOf_allOf]
  | .any items =>
    refine (serves_predicates ctx given items).last fun es => ?_
    rw [Expr.values_getD, Expr.valuesOf_anyOf]
  | .not inner => exact (serves_predicate ctx given inner).last fun e => by rw [Expr.values]
  | .compare subject op operand caseInsensitive => exact serves_comparePredicate ..
  | .nullness subject isNull => exact serves_nullness subject isNull
  | .labels labels => exact .pure (by simp [Expr.values])
  | .related relationship quantifier targets isComposite edge =>
    exact serves_block ctx given relationship quantifier
      (fun ctx given => serves_alternatives ctx given targets)
      (fun ctx given => serves_firstTarget ctx given targets)
      (fun ctx given => serves_option ctx given edge)
  | .aggregation a =>
    refine (Serves.shared (.aggregation a)).last fun name => ?_
    simp [Expr.equals, Expr.bool, Expr.values]
  | .authenticated =>
    have hparam : Serves ctx.subject [] given (fun e => given ++ e.values)
        (liftM (param (.bool ctx.terms.authenticated)) : Predicate Expr) := by
      refine .lift fun s e t h => ?_
      obtain ⟨rfl, _⟩ := (param_ok ..).mp h
      exact ⟨.param h, by simp [Expr.values]⟩
    exact hparam.last fun e => by simp [Expr.equals, Expr.bool, Expr.values]
theorem serves_predicates (ctx : Context) (given : List String) (cs : List Condition) :
    Serves ctx.subject (Condition.leavesOf cs) given (fun es => given ++ Expr.valuesOf es)
      (Condition.predicates ctx cs) := by
  match cs with
  | [] => exact .pure (by simp [Expr.valuesOf])
  | c :: rest =>
    refine (serves_predicate ctx given c).bind fun e => ?_
    exact (serves_predicates ctx _ rest).last fun es => by simp [Expr.valuesOf]
theorem serves_alternatives (ctx : Context) (given : List String)
    (targets : List (Entity × Option Condition)) :
    Serves ctx.subject (Condition.alternativeLeaves targets) given
      (fun es => given ++ Expr.valuesOf es) (Condition.alternatives ctx targets) := by
  match targets with
  | [] => exact .pure (by simp [Expr.valuesOf])
  | (e, filter) :: rest =>
    refine (serves_option ctx given filter).bind fun own => ?_
    refine (serves_alternatives ctx _ rest).last fun es => ?_
    simp [Expr.valuesOf_allOf, Expr.valuesOf, Expr.values]
theorem serves_firstTarget (ctx : Context) (given : List String)
    (targets : List (Entity × Option Condition)) :
    Serves ctx.subject (Condition.firstLeaves targets) given
      (fun es => given ++ Expr.valuesOf es) (Condition.firstTarget ctx targets) := by
  match targets with
  | [] => exact .pure (by simp [Expr.valuesOf])
  | (_, filter) :: _ => exact serves_option ctx given filter
theorem serves_option (ctx : Context) (given : List String) (c : Option Condition) :
    Serves ctx.subject (Condition.optionLeaves c) given (fun es => given ++ Expr.valuesOf es)
      (Condition.optionPredicate ctx c) := by
  match c with
  | none => exact .pure (by simp [Expr.valuesOf])
  | some c => exact (serves_predicate ctx given c).last fun e => by simp [Expr.valuesOf]
end

theorem serves_scope (ctx : Context) (given : List String) (scope : FilterScope) :
    Serves ctx.subject scope.leaves given (fun es => given ++ Expr.valuesOf es)
      (scope.build ctx) := by
  cases scope with
  | whole c => exact serves_option ctx given c
  | related targets isComposite edge =>
    exact serves_related (serves_alternatives ctx given targets)
      (serves_firstTarget ctx given targets) fun given => serves_option ctx given edge

end Predicates

/-- Whatever is gathered in a scope, its calls were made for leaves of the scope, one for each key,
and the variables that its predicates read stand for its leaves. -/
theorem gathered_made {ctx : Context} {scope : FilterScope} {s t : Supply} {es : List Expr}
    {calls : List Clause} (h : gathered (scope.build ctx) s = .ok ((es, calls), t)) :
    ∃ q made, q.calls = calls ∧ Known ctx.subject q t made ∧
      (∀ m ∈ made, m.leaf ∈ scope.leaves) ∧
      List.Forall₂ (StandsFor ctx.subject made) scope.leaves (Expr.valuesOf es) := by
  obtain ⟨q, hbuilt, hcalls⟩ := (gathered_ok ..).mp h
  obtain ⟨xs, made, hxs, hadds⟩ :=
    (serves_scope ctx [] scope).run _ _ _ _ _ _ (.start _ _) hbuilt
  rw [List.nil_append, List.nil_append] at hxs
  exact ⟨q, made, hcalls, hadds.known, hadds.among, hxs ▸ hadds.reads⟩

end GraphSelection.Program
