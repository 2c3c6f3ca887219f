import GraphSelection.Proofs.Completed.Scopes
import GraphSelection.Proofs.Levels
import GraphSelection.Proofs.MissingClaims
import GraphSelection.Proofs.Mixed
import GraphSelection.Proofs.Resolved.Conditions

/-!
Boolean readings of objects of conditions. An object is read as the conjunction of its entries,
lists under `AND` and `OR` as the conjunction and the disjunction of their items, `NOT` as negation;
what constrains nothing is left out. The condition of an object is put together differently:
conjunctions are flattened, single members stand for themselves, and its predicate is flattened once
more with the guards of the leaves. The predicate has the truth of the reading all the same,
whatever the truth of its leaves is, known or not.
-/
namespace GraphSelection.Plan

open Cypher

/-- Leaves, joined by connectives. -/
inductive Formula (α : Type) where
  | leaf (a : α)
  | all (items : List (Formula α))
  | any (items : List (Formula α))
  | not (inner : Formula α)

section Formulas

variable {α : Type}

/-- A conjunction, unless there is nothing to join. -/
def Formula.conjunction : List (Formula α) → Option (Formula α)
  | [] => none
  | items => some (.all items)

def Formula.disjunction : List (Formula α) → Option (Formula α)
  | [] => none
  | items => some (.any items)

/-- Leaves that all have to hold. -/
def Formula.leavesAll (leaves : List α) : Option (Formula α) :=
  Formula.conjunction (leaves.map .leaf)

mutual
/-- The leaves of a formula, in their order. -/
def Formula.leaves : Formula α → List α
  | .leaf a => [a]
  | .all items => Formula.leavesOf items
  | .any items => Formula.leavesOf items
  | .not inner => inner.leaves
def Formula.leavesOf : List (Formula α) → List α
  | [] => []
  | f :: rest => f.leaves ++ Formula.leavesOf rest
end

mutual
/-- The truth of a formula, for a truth of each leaf. -/
def Formula.truth (value : α → Truth) : Formula α → Truth
  | .leaf a => value a
  | .all items => Formula.truthOfAll value items
  | .any items => Formula.truthOfAny value items
  | .not inner => (Formula.truth value inner).not
def Formula.truthOfAll (value : α → Truth) : List (Formula α) → Truth
  | [] => .yes
  | f :: rest => (Formula.truth value f).and (Formula.truthOfAll value rest)
def Formula.truthOfAny (value : α → Truth) : List (Formula α) → Truth
  | [] => .no
  | f :: rest => (Formula.truth value f).or (Formula.truthOfAny value rest)
end

end Formulas

/-- A condition that is no connective. -/
def Condition.IsLeaf : Condition → Prop
  | .all _ => False
  | .any _ => False
  | .not _ => False
  | _ => True

/-- Among the conjunctions of a condition there is none without members. -/
inductive Condition.Constrains : Condition → Prop
  | all {items : List Condition} (hne : items ≠ []) (h : ∀ c ∈ items, Condition.Constrains c) :
      Condition.Constrains (.all items)
  | other {c : Condition} (h : c.conjuncts = [c]) : Condition.Constrains c

theorem Condition.IsLeaf.conjuncts {c : Condition} (h : c.IsLeaf) : c.conjuncts = [c] := by
  cases c with
  | all items => exact h.elim
  | _ => rfl

theorem Condition.Constrains.conjuncts {c : Condition} (h : c.Constrains) :
    c.conjuncts ≠ [] ∧ ∀ x ∈ c.conjuncts, x.Constrains := by
  cases h with
  | all hne h => exact ⟨hne, h⟩
  | other h =>
    rw [h]
    exact ⟨List.cons_ne_nil _ _, fun x hx => List.mem_singleton.mp hx ▸ .other h⟩

end GraphSelection.Plan

namespace GraphSelection.Program

open Cypher Plan

mutual
/-- The leaves of a formula are compiled one after the other. -/
def Formula.predicate (ctx : Context) : Formula Condition → Predicate (Formula Expr)
  | .leaf c => do return .leaf (← Condition.predicate ctx c)
  | .all items => do return .all (← Formula.predicates ctx items)
  | .any items => do return .any (← Formula.predicates ctx items)
  | .not inner => do return .not (← Formula.predicate ctx inner)
def Formula.predicates (ctx : Context) : List (Formula Condition) → Predicate (List (Formula Expr))
  | [] => return []
  | f :: rest => do
      let g ← Formula.predicate ctx f
      let gs ← Formula.predicates ctx rest
      return g :: gs
end

/-- The condition is a form of the formula: it compiles like the leaves of the formula, to a
predicate that always has the truth of the formula. -/
structure FormOf (c : Condition) (f : Formula Condition) : Prop where
  constrains : c.Constrains
  leaves : ∀ a ∈ f.leaves, a.IsLeaf
  compiled : ∀ (ctx : Context) {e : Expr} {q r : Subqueries} {s t : Supply},
    Condition.predicate ctx c q s = .ok ((e, r), t) →
    ∃ g, Formula.predicate ctx f q s = .ok ((g, r), t) ∧
      ∀ row : Expr → Truth, e.truth row = g.truth fun leaf => leaf.truth row

/-- The conditions in conjunction are the formula: taken apart they compile like its leaves, to
predicates that are all true as the formula is. -/
structure JoinOf (cs : List Condition) (f : Formula Condition) : Prop where
  ne : cs ≠ []
  constrains : ∀ c ∈ cs, c.Constrains
  leaves : ∀ a ∈ f.leaves, a.IsLeaf
  compiled : ∀ (ctx : Context) {es : List Expr} {q r : Subqueries} {s t : Supply},
    Condition.predicates ctx (cs.flatMap Condition.conjuncts) q s = .ok ((es, r), t) →
    ∃ g, Formula.predicate ctx f q s = .ok ((g, r), t) ∧
      ∀ row : Expr → Truth, Expr.truthOfAll row es = g.truth fun leaf => leaf.truth row

section Forms

variable {c : Condition} {f : Formula Condition} {cs : List Condition}
  {fs : List (Formula Condition)} {ctx : Context} {es : List Expr} {q r : Subqueries}
  {s t : Supply}

theorem mapped_run {α β : Type} {x : Predicate α} (f : α → β) {a : α}
    (h : x q s = .ok ((a, r), t)) :
    (do return f (← x) : Predicate β) q s = .ok ((f a, r), t) :=
  (predicate_bind_ok ..).mpr ⟨a, r, t, h, (predicate_pure_ok ..).mpr ⟨rfl, rfl, rfl⟩⟩

theorem predicates_run {g : Formula Expr} {gs : List (Formula Expr)} {q' : Subqueries} {s' : Supply}
    (hfirst : Formula.predicate ctx f q s = .ok ((g, q'), s'))
    (hrest : Formula.predicates ctx fs q' s' = .ok ((gs, r), t)) :
    Formula.predicates ctx (f :: fs) q s = .ok ((g :: gs, r), t) := by
  rw [Formula.predicates]
  exact (predicate_bind_ok ..).mpr ⟨g, q', s', hfirst, mapped_run (g :: ·) hrest⟩

theorem FormOf.leaf (h : c.IsLeaf) : FormOf c (.leaf c) where
  constrains := .other h.conjuncts
  leaves a ha := List.mem_singleton.mp ha ▸ h
  compiled ctx e q r s t hrun := by
    refine ⟨.leaf e, ?_, fun row => rfl⟩
    rw [Formula.predicate]
    exact mapped_run _ hrun

theorem FormOf.not (h : FormOf c f) : FormOf (.not c) (.not f) where
  constrains := .other rfl
  leaves := h.leaves
  compiled ctx e q r s t hrun := by
    simp only [Condition.predicate, predicate_bind_ok, predicate_pure_ok] at hrun
    obtain ⟨e', _, _, he, rfl, rfl, rfl⟩ := hrun
    obtain ⟨g, hg, htruth⟩ := h.compiled ctx he
    refine ⟨.not g, ?_, fun row => ?_⟩
    · rw [Formula.predicate]
      exact mapped_run _ hg
    · rw [Expr.truth, htruth row, Formula.truth]

theorem truthOfAll_single (row : Expr → Truth) (e : Expr) :
    Expr.truthOfAll row [e] = e.truth row := by
  rw [Expr.truthOfAll, Expr.truthOfAll, Truth.and_yes_right]

/-- The conjuncts of a condition compile to the conjuncts of its predicate, or like it. -/
theorem predicates_conjuncts
    (h : Condition.predicates ctx c.conjuncts q s = .ok ((es, r), t)) :
    ∃ e, Condition.predicate ctx c q s = .ok ((e, r), t) ∧
      ∀ row, Expr.truthOfAll row es = e.truth row := by
  have hsingle : Condition.predicates ctx [c] q s = .ok ((es, r), t) →
      ∃ e, Condition.predicate ctx c q s = .ok ((e, r), t) ∧
        ∀ row, Expr.truthOfAll row es = e.truth row := by
    intro h
    obtain ⟨e, he, rfl⟩ := predicates_single_ok.mp h
    exact ⟨e, he, fun row => truthOfAll_single row e⟩
  cases c with
  | all items =>
    exact ⟨_, predicate_all_ok.mpr ⟨es, h, rfl⟩, fun row => (Expr.truth_allOf row es).symm⟩
  | _ => exact hsingle h

theorem FormOf.join (h : FormOf c f) : JoinOf [c] f where
  ne := List.cons_ne_nil _ _
  constrains := fun x hx => List.mem_singleton.mp hx ▸ h.constrains
  leaves := h.leaves
  compiled ctx es q r s t hrun := by
    rw [List.flatMap_cons, List.flatMap_nil, List.append_nil] at hrun
    obtain ⟨e, he, hsame⟩ := predicates_conjuncts hrun
    obtain ⟨g, hg, htruth⟩ := h.compiled ctx he
    exact ⟨g, hg, fun row => (hsame row).trans (htruth row)⟩

theorem joins_of_forms (h : List.Forall₂ FormOf cs fs) :
    List.Forall₂ JoinOf (cs.map fun c => [c]) fs := by
  induction h with
  | nil => exact .nil
  | cons hfirst _ ih => exact .cons hfirst.join ih

theorem flatten_singletons (cs : List Condition) : (cs.map fun c => [c]).flatten = cs := by
  rw [← List.flatMap_def, List.flatMap_singleton']

theorem leavesOf_joins {groups : List (List Condition)} (h : List.Forall₂ JoinOf groups fs) :
    ∀ a ∈ Formula.leavesOf fs, a.IsLeaf := by
  induction h with
  | nil => exact fun a ha => absurd ha List.not_mem_nil
  | cons hfirst _ ih =>
    intro a ha
    rcases List.mem_append.mp ha with ha | ha
    · exact hfirst.leaves a ha
    · exact ih a ha

theorem constrains_joins {groups : List (List Condition)} (h : List.Forall₂ JoinOf groups fs) :
    ∀ c ∈ groups.flatten, c.Constrains := by
  induction h with
  | nil => exact fun c hc => absurd hc List.not_mem_nil
  | cons hfirst _ ih =>
    rw [List.flatten_cons]
    exact List.forall_mem_append.mpr ⟨hfirst.constrains, ih⟩

theorem leavesOf_forms (h : List.Forall₂ FormOf cs fs) : ∀ a ∈ Formula.leavesOf fs, a.IsLeaf :=
  leavesOf_joins (joins_of_forms h)

theorem constrains_forms (h : List.Forall₂ FormOf cs fs) : ∀ c ∈ cs, c.Constrains :=
  flatten_singletons cs ▸ constrains_joins (joins_of_forms h)

/-- Forms are compiled one by one. -/
theorem predicates_forms (h : List.Forall₂ FormOf cs fs)
    (hrun : Condition.predicates ctx cs q s = .ok ((es, r), t)) :
    ∃ gs, Formula.predicates ctx fs q s = .ok ((gs, r), t) ∧ ∀ row : Expr → Truth,
      Expr.truthOfAll row es = Formula.truthOfAll (fun leaf => leaf.truth row) gs ∧
      Expr.truthOfAny row es = Formula.truthOfAny (fun leaf => leaf.truth row) gs := by
  induction h generalizing q s es with
  | nil =>
    simp only [Condition.predicates, predicate_pure_ok] at hrun
    obtain ⟨rfl, rfl, rfl⟩ := hrun
    exact ⟨[], rfl, fun row => ⟨rfl, rfl⟩⟩
  | cons hfirst _ ih =>
    simp only [Condition.predicates, predicate_bind_ok, predicate_pure_ok] at hrun
    obtain ⟨e, q₁, s₁, he, es', _, _, hes, rfl, rfl, rfl⟩ := hrun
    obtain ⟨g, hg, htruth⟩ := hfirst.compiled ctx he
    obtain ⟨gs, hgs, htruths⟩ := ih hes
    refine ⟨g :: gs, predicates_run hg hgs, fun row => ?_⟩
    obtain ⟨hall, hany⟩ := htruths row
    rw [Expr.truthOfAll, Expr.truthOfAny, htruth row, hall, hany, Formula.truthOfAll,
      Formula.truthOfAny]
    exact ⟨rfl, rfl⟩

theorem FormOf.all (h : List.Forall₂ FormOf cs fs) (hne : cs ≠ []) :
    FormOf (.all cs) (.all fs) where
  constrains := .all hne (constrains_forms h)
  leaves := leavesOf_forms h
  compiled ctx e q r s t hrun := by
    obtain ⟨es, hes, rfl⟩ := predicate_all_ok.mp hrun
    obtain ⟨gs, hgs, htruths⟩ := predicates_forms h hes
    refine ⟨.all gs, ?_, fun row => ?_⟩
    · rw [Formula.predicate]
      exact mapped_run _ hgs
    · rw [Expr.truth_allOf, (htruths row).1, Formula.truth]

theorem FormOf.any (h : List.Forall₂ FormOf cs fs) : FormOf (.any cs) (.any fs) where
  constrains := .other rfl
  leaves := leavesOf_forms h
  compiled ctx e q r s t hrun := by
    simp only [Condition.predicate, predicate_bind_ok, predicate_pure_ok] at hrun
    obtain ⟨es, _, _, hes, rfl, rfl, rfl⟩ := hrun
    obtain ⟨gs, hgs, htruths⟩ := predicates_forms h hes
    refine ⟨.any gs, ?_, fun row => ?_⟩
    · rw [Formula.predicate]
      exact mapped_run _ hgs
    · rw [Expr.truth_anyOf, (htruths row).2, Formula.truth]

theorem predicates_split {cs' : List Condition}
    (h : Condition.predicates ctx (cs ++ cs') q s = .ok ((es, r), t)) :
    ∃ es₁ es₂ q' s', Condition.predicates ctx cs q s = .ok ((es₁, q'), s') ∧
      Condition.predicates ctx cs' q' s' = .ok ((es₂, r), t) ∧ es = es₁ ++ es₂ := by
  induction cs generalizing q s es with
  | nil =>
    exact ⟨[], es, q, s, rfl, h, rfl⟩
  | cons c rest ih =>
    simp only [List.cons_append, Condition.predicates, predicate_bind_ok, predicate_pure_ok] at h
    obtain ⟨e, _, _, he, es', _, _, hes, rfl, rfl, rfl⟩ := h
    obtain ⟨es₁, es₂, q', s', hfirst, hsecond, rfl⟩ := ih hes
    refine ⟨e :: es₁, es₂, q', s', ?_, hsecond, rfl⟩
    simp only [Condition.predicates, predicate_bind_ok, predicate_pure_ok]
    exact ⟨e, _, _, he, es₁, _, _, hfirst, rfl, rfl, rfl⟩

/-- Conjunctions that are flattened into one another are compiled like the formulas that they are
the joins of. -/
theorem predicates_joined {groups : List (List Condition)} (h : List.Forall₂ JoinOf groups fs)
    (hrun : Condition.predicates ctx (groups.flatten.flatMap Condition.conjuncts) q s =
      .ok ((es, r), t)) :
    ∃ gs, Formula.predicates ctx fs q s = .ok ((gs, r), t) ∧ ∀ row : Expr → Truth,
      Expr.truthOfAll row es = Formula.truthOfAll (fun leaf => leaf.truth row) gs := by
  induction h generalizing q s es with
  | nil =>
    simp only [List.flatten_nil, List.flatMap_nil, Condition.predicates, predicate_pure_ok] at hrun
    obtain ⟨rfl, rfl, rfl⟩ := hrun
    exact ⟨[], rfl, fun row => rfl⟩
  | cons hfirst _ ih =>
    rw [List.flatten_cons, List.flatMap_append] at hrun
    obtain ⟨es₁, es₂, q', s', hown, hothers, rfl⟩ := predicates_split hrun
    obtain ⟨g, hg, htruth⟩ := hfirst.compiled ctx hown
    obtain ⟨gs, hgs, htruths⟩ := ih hothers
    refine ⟨g :: gs, predicates_run hg hgs, fun row => ?_⟩
    rw [Expr.truthOfAll_append, htruth row, htruths row, Formula.truthOfAll]

/-- Groups of conditions in one conjunction, of which each is the join of a formula. -/
theorem JoinOf.flatten {groups : List (List Condition)} (h : List.Forall₂ JoinOf groups fs)
    (hne : fs ≠ []) : JoinOf groups.flatten (.all fs) where
  ne := by
    cases h with
    | nil => exact absurd rfl hne
    | cons hfirst _ => exact List.append_ne_nil_of_left_ne_nil hfirst.ne _
  constrains := constrains_joins h
  leaves := leavesOf_joins h
  compiled ctx es q r s t hrun := by
    obtain ⟨gs, hgs, htruths⟩ := predicates_joined h hrun
    refine ⟨.all gs, ?_, fun row => ?_⟩
    · rw [Formula.predicate]
      exact mapped_run _ hgs
    · rw [htruths row, Formula.truth]

theorem conjunction_of_ne (hne : fs ≠ []) : Formula.conjunction fs = some (.all fs) := by
  cases fs with
  | nil => exact absurd rfl hne
  | cons f rest => rfl

/-- Conditions that join a formula, put together to one condition. -/
theorem JoinOf.allOf (h : JoinOf cs f) : ∃ c, Condition.allOf cs = some c ∧ FormOf c f := by
  have hflat : ∀ x ∈ cs.flatMap Condition.conjuncts, x.Constrains := by
    intro x hx
    obtain ⟨c, hc, hx⟩ := List.mem_flatMap.mp hx
    exact (h.constrains c hc).conjuncts.2 x hx
  unfold Condition.allOf
  split
  · rename_i hnil
    obtain ⟨c, rest, rfl⟩ := List.exists_cons_of_ne_nil h.ne
    have hempty := List.flatMap_eq_nil_iff.mp hnil c List.mem_cons_self
    exact absurd hempty (h.constrains c List.mem_cons_self).conjuncts.1
  · rename_i c hone
    refine ⟨c, rfl, hflat c (hone ▸ List.mem_cons_self), h.leaves, fun ctx e q r s t hrun => ?_⟩
    have hsingle : Condition.predicates ctx (cs.flatMap Condition.conjuncts) q s =
        .ok (([e], r), t) := by
      rw [hone]
      exact predicates_single_ok.mpr ⟨e, hrun, rfl⟩
    obtain ⟨g, hg, htruth⟩ := h.compiled ctx hsingle
    exact ⟨g, hg, fun row => (truthOfAll_single row e).symm.trans (htruth row)⟩
  · rename_i hnil _
    refine ⟨_, rfl, .all hnil hflat, h.leaves, fun ctx e q r s t hrun => ?_⟩
    obtain ⟨es, hes, rfl⟩ := predicate_all_ok.mp hrun
    obtain ⟨g, hg, htruth⟩ := h.compiled ctx hes
    exact ⟨g, hg, fun row => (Expr.truth_allOf row es).trans (htruth row)⟩

/-- A conjunction of joins is a form of the conjunction, however it is put together; where there is
nothing to join there is no condition. -/
theorem allOf_joins {groups : List (List Condition)} (h : List.Forall₂ JoinOf groups fs) :
    Option.Rel FormOf (Condition.allOf groups.flatten) (Formula.conjunction fs) := by
  by_cases hne : fs = []
  · subst hne
    cases h
    exact .none
  · obtain ⟨c, hc, hform⟩ := (JoinOf.flatten h hne).allOf
    rw [hc, conjunction_of_ne hne]
    exact .some hform

theorem allOf_forms (h : List.Forall₂ FormOf cs fs) :
    Option.Rel FormOf (Condition.allOf cs) (Formula.conjunction fs) :=
  flatten_singletons cs ▸ allOf_joins (joins_of_forms h)

/-- Leaves in conjunction. -/
theorem forms_leaves (h : ∀ c ∈ cs, c.IsLeaf) : List.Forall₂ FormOf cs (cs.map .leaf) := by
  induction cs with
  | nil => exact .nil
  | cons c rest ih =>
    obtain ⟨hfirst, hrest⟩ := List.forall_mem_cons.mp h
    exact .cons (.leaf hfirst) (ih hrest)

theorem allOf_leaves (h : ∀ c ∈ cs, c.IsLeaf) :
    Option.Rel FormOf (Condition.allOf cs) (Formula.leavesAll cs) :=
  allOf_forms (forms_leaves h)

end Forms

end GraphSelection.Program

namespace GraphSelection.Resolve

open GraphSelection Plan Program Cypher

/-- What objects of one kind say under the keys that are no connectives, and where the items of
their lists stand. -/
structure Phrasing where
  itemPath : String → Nat → String
  field : String → String → Doc → Result (Option (Formula Condition))

mutual
/-- An object is the conjunction of its entries. -/
def Phrasing.object (p : Phrasing) (path : String) : Doc → Result (Option (Formula Condition))
  | .record members => do
      let fs ← p.entries path members
      return Formula.conjunction fs
  | _ => .error (.argument path .expectedObject)
/-- The objects of a list, but for those that constrain nothing. -/
def Phrasing.list (p : Phrasing) (path : String) : Doc → Result (List (Formula Condition))
  | .list items => p.items path 0 items
  | _ => .error (.argument path .expectedList)
def Phrasing.items (p : Phrasing) (path : String) (index : Nat) :
    List Doc → Result (List (Formula Condition))
  | [] => .ok []
  | item :: rest => do
      let f ← p.object (p.itemPath path index) item
      let fs ← p.items path (index + 1) rest
      return f.toList ++ fs
def Phrasing.entries (p : Phrasing) (path : String) :
    List (String × Doc) → Result (List (Formula Condition))
  | [] => .ok []
  | (key, value) :: rest => do
      let f ← (match key with
        | "AND" => (p.list (childPath path key) value).map Formula.conjunction
        | "OR" => (p.list (childPath path key) value).map Formula.disjunction
        | "NOT" => (p.object (childPath path key) value).map (Option.map Formula.not)
        | _ => p.field path key value : Result (Option (Formula Condition)))
      let fs ← p.entries path rest
      return f.toList ++ fs
end

namespace AggregationKeys

variable (k : AggregationKeys)

/-- The comparisons under a key of an aggregation object. -/
def comparisons (path key : String) (value : Doc) : Result (List Condition) :=
  let here := childPath path key
  match key with
  | "count" => k.count value here
  | "node" => do
      let members ← asRecord value here
      k.attributes k.target.attribute? .node members here
  | "edge" =>
      match k.properties with
      | none => .error (.unknownField k.relationship.name "edge")
      | some properties => do
          let members ← asRecord value here
          k.attributes properties.attribute? .edge members here
  | _ =>
      match countEnding? key with
      | some op => do
          let c ← k.leaf .countNodes op value here
          return [c]
      | none => .error (.filter here (.notAggregation key))

def phrasing : Phrasing where
  itemPath path _ := path
  field path key value := (k.comparisons path key value).map Formula.leavesAll

end AggregationKeys

namespace Reader

variable (r : Reader)

def valueReading (subject : Subject) (a : Option Attribute) (value : Doc) (path : String) :
    Result (Option (Formula Condition)) :=
  match value with
  | .record members =>
      if isOperatorRecord members then
        (operatorParts r.mode subject a path members).map Formula.leavesAll
      else (compared r.mode subject a .eq value false path).map fun c => some (.leaf c)
  | _ => (compared r.mode subject a .eq value false path).map fun c => some (.leaf c)

def relatedReading (relationship : Relationship) (value : Doc) (path : String) :
    Result (Option (Formula Condition)) :=
  match value with
  | .null =>
      (r.related r.condition relationship .noneAtAll none none path).map fun c => some (.leaf c)
  | .record members =>
      if isQuantifierRecord members then
        (members.mapM fun (key, inner) => do
          let q ← quantifierOf key path
          r.related r.condition relationship q (some inner) none (childPath path key)).map
          Formula.leavesAll
      else (r.related r.condition relationship .atLeastOne (some value) none path).map
        fun c => some (.leaf c)
  | _ => .error (.argument path .expectedObject)

/-- Aggregations are about a single entity. -/
def aggregationReading (relationship : Relationship) (value : Doc) (path : String) :
    Result (Option (Formula Condition)) := do
  match ← ofSchema (r.setup.schema.targetOf relationship) with
  | .entity e =>
      (AggregationKeys.phrasing
        ⟨relationship, e, r.setup.schema.propertiesOf relationship⟩).object path value
  | .composite c => .error (.aggregation path (.isComposite c.name))

def connectionPartReading (relationship : Relationship) (path key : String) (inner : Doc) :
    Result (Option (Formula Condition)) :=
  if key = "aggregate" then r.aggregationReading relationship inner (childPath path key)
  else do
    let q ← quantifierOf key path
    let c ← r.connected r.condition relationship q inner (childPath path key)
    return some (.leaf c)

def connectionReading (relationship : Relationship) (value : Doc) (path : String) :
    Result (Option (Formula Condition)) :=
  match value with
  | .null =>
      (r.related r.condition relationship .noneAtAll none none path).map fun c => some (.leaf c)
  | .record members =>
      if isConnectionRecord members then
        (members.mapM fun (key, inner) =>
          r.connectionPartReading relationship path key inner).map
          (Formula.conjunction ∘ List.filterMap id)
      else (r.connected r.condition relationship .atLeastOne value path).map
        fun c => some (.leaf c)
  | _ => .error (.argument path .expectedObject)

/-- What an entry says, by the form of its key. -/
def formReading (owner key : String) (value : Doc) (path : String) :
    KeyForm → Result (Option (Formula Condition))
  | .own subject a => r.valueReading subject a value path
  | .compared _ op subject a =>
      (compared r.mode subject a op value false path).map fun c => some (.leaf c)
  | .related relationship => r.relatedReading relationship value path
  | .quantified _ q relationship =>
      (r.related r.condition relationship q (some value) none path).map fun c => some (.leaf c)
  | .connection relationship => r.connectionReading relationship value path
  | .connected _ q relationship =>
      (r.connected r.condition relationship q value path).map fun c => some (.leaf c)
  | .aggregate relationship => r.aggregationReading relationship value path
  | .unknown => .error (.unknownField owner key)

def phrasing (keys : Keys) : Phrasing where
  itemPath := itemPath
  field path key value :=
    r.formReading keys.owner key value (childPath path key) (r.form keys key)

/-- What an object of conditions says; nothing when it constrains nothing. -/
def reading (keys : Keys) (members : Doc.Members) (path : String) :
    Result (Option (Formula Condition)) :=
  (r.phrasing keys).object path (.record members)

end Reader

section Phrasings

/-- The entry of an object, as a connective or as what its key says. -/
def Phrasing.entry (p : Phrasing) (path key : String) (value : Doc) :
    Result (Option (Formula Condition)) :=
  match key with
  | "AND" => (p.list (childPath path key) value).map Formula.conjunction
  | "OR" => (p.list (childPath path key) value).map Formula.disjunction
  | "NOT" => (p.object (childPath path key) value).map (Option.map Formula.not)
  | _ => p.field path key value

variable {p : Phrasing} {path key : String} {value : Doc}

theorem Phrasing.entries_cons (rest : Doc.Members) :
    p.entries path ((key, value) :: rest) = (do
      let f ← p.entry path key value
      let fs ← p.entries path rest
      return f.toList ++ fs) :=
  rfl

theorem Phrasing.entry_field (h : key ∉ connectives) :
    p.entry path key value = p.field path key value := by
  unfold Phrasing.entry
  split
  · exact absurd (by decide) h
  · exact absurd (by decide) h
  · exact absurd (by decide) h
  · rfl

end Phrasings

section Leaves

variable {r : Reader} {k : AggregationKeys} {c : Condition} {path : String} {value : Doc}

theorem Tests.isLeaf {subject : Subject} (h : Tests subject c) : c.IsLeaf := by
  rcases h with rfl | ⟨op, operand, caseInsensitive, rfl⟩
  · exact trivial
  · exact trivial

theorem Aggregates.isLeaf (h : Aggregates c) : c.IsLeaf := by
  obtain ⟨a, rfl⟩ := h
  exact trivial

theorem related_isLeaf {below : Level} {relationship : Relationship} {quantifier : Quantifier}
    {node edge : Option Doc} (h : r.related below relationship quantifier node edge path = .ok c) :
    c.IsLeaf := by
  simp only [Reader.related, except_bind_ok] at h
  obtain ⟨members, _, target, _, h⟩ := h
  cases target with
  | entity e =>
    simp only [except_bind_ok, except_pure_ok] at h
    obtain ⟨_, _, _, _, rfl⟩ := h
    exact trivial
  | composite composite =>
    simp only [except_bind_ok, except_pure_ok] at h
    obtain ⟨_, _, _, _, _, _, rfl⟩ := h
    exact trivial

theorem connected_isLeaf {below : Level} {relationship : Relationship} {quantifier : Quantifier}
    (h : r.connected below relationship quantifier value path = .ok c) : c.IsLeaf := by
  unfold Reader.connected at h
  split at h
  · exact related_isLeaf h
  · simp only [except_bind_ok] at h
    obtain ⟨members, _, h⟩ := h
    split at h
    · cases h
    · exact related_isLeaf h

theorem comparisons_aggregate {key : String} {cs : List Condition}
    (h : k.comparisons path key value = .ok cs) : ∀ c ∈ cs, Aggregates c := by
  unfold AggregationKeys.comparisons at h
  simp only at h
  split at h
  · exact count_aggregates h
  · simp only [except_bind_ok] at h
    obtain ⟨members, _, hmembers⟩ := h
    exact attributes_aggregate hmembers
  · split at h
    · cases h
    · simp only [except_bind_ok] at h
      obtain ⟨members, _, hmembers⟩ := h
      exact attributes_aggregate hmembers
  · split at h
    · simp only [except_bind_ok, except_pure_ok] at h
      obtain ⟨c, hleaf, rfl⟩ := h
      simpa using leaf_aggregates hleaf
    · cases h

end Leaves

section Follows

variable {α β γ δ : Type}

/-- When the first has a result so has the second, and the results are related. -/
def Follows (R : α → β → Prop) (x : Result α) (y : Result β) : Prop :=
  ∀ a, x = .ok a → ∃ b, y = .ok b ∧ R a b

theorem Follows.error (R : α → β → Prop) (e : Failure) (y : Result β) : Follows R (.error e) y :=
  nofun

theorem Follows.ok {R : α → β → Prop} {a : α} {b : β} (h : R a b) : Follows R (.ok a) (.ok b) := by
  intro a' ha
  cases ha
  exact ⟨b, rfl, h⟩

theorem Follows.bind {S : γ → δ → Prop} {R : α → β → Prop} {x : Result γ} {y : Result δ}
    {f : γ → Result α} {g : δ → Result β} (hx : Follows S x y)
    (h : ∀ c d, S c d → Follows R (f c) (g d)) : Follows R (x >>= f) (y >>= g) := by
  intro a ha
  obtain ⟨c, hc, ha⟩ := (except_bind_ok ..).mp ha
  obtain ⟨d, rfl, hcd⟩ := hx c hc
  exact h c d hcd a ha

/-- Both are chosen by the same test. -/
theorem Follows.choose {R : α → β → Prop} {p : Prop} [Decidable p] {x x' : Result α}
    {y y' : Result β} (hyes : Follows R x y) (hno : Follows R x' y') :
    Follows R (if p then x else x') (if p then y else y') := by
  split
  · exact hyes
  · exact hno

theorem Follows.map {R : α → β → Prop} {x : Result γ} {f : γ → α} {g : γ → β}
    (h : ∀ c, x = .ok c → R (f c) (g c)) : Follows R (x.map f) (x.map g) := by
  cases x with
  | error e => exact .error R e _
  | ok c => exact .ok (h c rfl)

theorem Follows.mapM {R : γ → δ → Prop} {f : α → Result γ} {g : α → Result δ} {xs : List α}
    (h : ∀ x ∈ xs, Follows R (f x) (g x)) : Follows (List.Forall₂ R) (xs.mapM f) (xs.mapM g) := by
  induction xs with
  | nil => exact .ok .nil
  | cons x rest ih =>
    rw [List.mapM_cons, List.mapM_cons]
    refine .bind (h x List.mem_cons_self) fun c d hcd => ?_
    refine .bind (ih fun y hy => h y (List.mem_cons_of_mem _ hy)) fun cs ds hcds => ?_
    exact .ok (.cons hcd hcds)

end Follows

section Kinds

/-- Conditions that are forms of what is said, where anything is. -/
abbrev Forms : Option Condition → Option (Formula Condition) → Prop := Option.Rel FormOf

abbrev FormsEach : List Condition → List (Formula Condition) → Prop := List.Forall₂ FormOf

/-- The conditions of an entry are what it says, where it says anything. -/
inductive Says : List Condition → Option (Formula Condition) → Prop
  | nothing : Says [] none
  | something {cs : List Condition} {f : Formula Condition} (h : JoinOf cs f) : Says cs (some f)

theorem Forms.said {c : Option Condition} {f : Option (Formula Condition)} (h : Forms c f) :
    Says c.toList f := by
  cases h with
  | none => exact .nothing
  | some h => exact .something h.join

theorem says_leaves {cs : List Condition} (h : ∀ c ∈ cs, c.IsLeaf) :
    Says cs (Formula.leavesAll cs) := by
  cases cs with
  | nil => exact .nothing
  | cons c rest =>
    have hjoins := joins_of_forms (forms_leaves h)
    have hjoin := JoinOf.flatten hjoins (List.cons_ne_nil _ _)
    rw [flatten_singletons] at hjoin
    exact .something hjoin

/-- Results of reading objects one by one, with the objects that say something. -/
def FormsFound (found : List (Option Condition)) (fs : List (Formula Condition)) : Prop :=
  FormsEach (found.filterMap id) fs

theorem formsFound_cons {c : Option Condition} {f : Option (Formula Condition)}
    {found : List (Option Condition)} {fs : List (Formula Condition)} (hfirst : Forms c f)
    (hrest : FormsFound found fs) : FormsFound (c :: found) (f.toList ++ fs) := by
  cases hfirst with
  | none => exact hrest
  | some hfirst => exact .cons hfirst hrest

/-- Entries that say nothing have no conditions, and are left out. -/
theorem joins_of_said {groups : List (List Condition)} {fs : List (Option (Formula Condition))}
    (h : List.Forall₂ Says groups fs) :
    ∃ joins, joins.flatten = groups.flatten ∧ List.Forall₂ JoinOf joins (fs.filterMap id) := by
  induction h with
  | nil => exact ⟨[], rfl, .nil⟩
  | @cons cs f _ _ hfirst _ ih =>
    obtain ⟨joins, hflat, hjoins⟩ := ih
    cases hfirst with
    | nothing => exact ⟨joins, hflat, hjoins⟩
    | something hfirst =>
      exact ⟨cs :: joins, by rw [List.flatten_cons, hflat, List.flatten_cons],
        .cons hfirst hjoins⟩

theorem Forms.leaf {c : Condition} (h : c.IsLeaf) : Forms (some c) (some (.leaf c)) :=
  .some (.leaf h)

end Kinds

section Phrased

/-- How the objects in a list are read, the first of them at an index. -/
def Phrasing.found (p : Phrasing) (condition : Doc.Members → String → Result (Option Condition))
    (path : String) (index : Nat) (items : List Doc) : Result (List (Option Condition)) :=
  ((List.range' index items.length).zip items).mapM fun (index, item) => do
    let members ← asRecord item (p.itemPath path index)
    condition members (p.itemPath path index)

def Phrasing.foundIn (p : Phrasing) (condition : Doc.Members → String → Result (Option Condition))
    (path : String) (value : Doc) : Result (List (Option Condition)) :=
  match value with
  | .list items => p.found condition path 0 items
  | _ => .error (.argument path .expectedList)

/-- The conditions of the objects in a list, joined by a connective. -/
def Phrasing.joined (p : Phrasing) (condition : Doc.Members → String → Result (Option Condition))
    (make : List Condition → Condition) (path : String) (value : Doc) :
    Result (List Condition) := do
  let found ← p.foundIn condition path value
  return if (found.filterMap id).isEmpty then [] else [make (found.filterMap id)]

/-- Objects are read as they are phrased: entry by entry, connectives by way of the objects inside
them, and all other entries to forms of what they say. -/
structure Phrasing.Reads (p : Phrasing)
    (condition : Doc.Members → String → Result (Option Condition))
    (outcome : String → String → Doc → Result (List Condition)) : Prop where
  object : ∀ {members path c}, condition members path = .ok c →
    ∃ parts, members.mapM (fun e => outcome path e.1 e.2) = .ok parts ∧
      c = Condition.allOf parts.flatten
  all : ∀ path value,
    outcome path "AND" value = p.joined condition .all (childPath path "AND") value
  any : ∀ path value,
    outcome path "OR" value = p.joined condition .any (childPath path "OR") value
  not : ∀ path value, outcome path "NOT" value = (do
    let members ← asRecord value (childPath path "NOT")
    let inner ← condition members (childPath path "NOT")
    return (inner.map Condition.not).toList)
  field : ∀ path key value, key ∉ connectives →
    Follows Says (outcome path key value) (p.field path key value)

variable {p : Phrasing} {condition : Doc.Members → String → Result (Option Condition)}
  {outcome : String → String → Doc → Result (List Condition)} {path key : String} {value : Doc}

theorem found_cons (index : Nat) (item : Doc) (rest : List Doc) :
    p.found condition path index (item :: rest) = (do
      let c ← (do
        let members ← asRecord item (p.itemPath path index)
        condition members (p.itemPath path index))
      let cs ← p.found condition path (index + 1) rest
      return c :: cs) := by
  rw [Phrasing.found, List.length_cons, List.range'_succ, List.zip_cons_cons, List.mapM_cons]
  rfl

/-- The objects of a list, read and joined by a connective. -/
theorem joined_reads {make : List Condition → Condition}
    (join : List (Formula Condition) → Formula Condition)
    {joinAll : List (Formula Condition) → Option (Formula Condition)}
    (hnil : joinAll [] = none) (hcons : ∀ f fs, joinAll (f :: fs) = some (join (f :: fs)))
    (hmake : ∀ {cs fs}, FormsEach cs fs → cs ≠ [] → FormOf (make cs) (join fs))
    (hlist : Follows FormsFound (p.foundIn condition path value) (p.list path value)) :
    Follows Says (p.joined condition make path value)
      ((p.list path value).map joinAll) := by
  intro cs hcs
  simp only [Phrasing.joined, except_bind_ok, except_pure_ok] at hcs
  obtain ⟨found, hfound, rfl⟩ := hcs
  obtain ⟨fs, hfs, hforms⟩ := hlist found hfound
  rw [hfs]
  refine ⟨joinAll fs, rfl, ?_⟩
  unfold FormsFound at hforms
  generalize found.filterMap id = cs at hforms
  cases hforms with
  | nil =>
    rw [hnil]
    exact .nothing
  | @cons c f cs fs hc hrest =>
    rw [hcons]
    exact .something (hmake (.cons hc hrest) (List.cons_ne_nil _ _)).join

theorem entry_reads (h : p.Reads condition outcome)
    (hobject : ∀ path, Follows Forms (do
      let members ← asRecord value path
      condition members path) (p.object path value))
    (hlist : ∀ path, Follows FormsFound (p.foundIn condition path value) (p.list path value)) :
    Follows Says (outcome path key value) (p.entry path key value) := by
  by_cases hkey : key ∈ connectives
  · simp only [connectives, List.mem_cons, List.not_mem_nil, or_false] at hkey
    rcases hkey with rfl | rfl | rfl
    · rw [h.all]
      exact joined_reads .all rfl (fun _ _ => rfl) .all (hlist _)
    · rw [h.any]
      exact joined_reads .any rfl (fun _ _ => rfl) (fun hforms _ => .any hforms) (hlist _)
    · rw [h.not]
      intro cs hcs
      simp only [except_bind_ok, except_pure_ok] at hcs
      obtain ⟨members, hmembers, inner, hinner, rfl⟩ := hcs
      obtain ⟨f, hf, hforms⟩ := hobject (childPath path "NOT") inner
        ((except_bind_ok ..).mpr ⟨members, hmembers, hinner⟩)
      refine ⟨f.map .not, by simp only [Phrasing.entry, hf]; rfl, ?_⟩
      cases hforms with
      | none => exact .nothing
      | some hforms => exact .something hforms.not.join
  · rw [Phrasing.entry_field hkey]
    exact h.field path key value hkey

mutual
/-- An object is read to a form of what it says. -/
theorem object_reads (h : p.Reads condition outcome) (path : String) : (value : Doc) →
    Follows Forms (do
      let members ← asRecord value path
      condition members path) (p.object path value)
  | .record members => by
    intro c hc
    have hread : condition members path = .ok c := hc
    obtain ⟨parts, hparts, rfl⟩ := h.object hread
    obtain ⟨fs, groups, hfs, hflat, hjoins⟩ := entries_read h path members parts hparts
    refine ⟨Formula.conjunction fs, by simp only [Phrasing.object, hfs]; rfl, ?_⟩
    exact hflat ▸ allOf_joins hjoins
  | .null | .bool _ | .int _ | .float _ | .text _ | .plain _ | .list _ => nofun
theorem list_reads (h : p.Reads condition outcome) (path : String) : (value : Doc) →
    Follows FormsFound (p.foundIn condition path value) (p.list path value)
  | .list items => items_read h path 0 items
  | .null | .bool _ | .int _ | .float _ | .text _ | .plain _ | .record _ => nofun
theorem items_read (h : p.Reads condition outcome) (path : String) (index : Nat) :
    (items : List Doc) →
    Follows FormsFound (p.found condition path index items) (p.items path index items)
  | [] => .ok .nil
  | item :: rest => by
    rw [found_cons, Phrasing.items]
    refine .bind (object_reads h _ item) fun c f hfirst => ?_
    refine .bind (items_read h path (index + 1) rest) fun found fs hrest => .ok ?_
    exact formsFound_cons hfirst hrest
theorem entries_read (h : p.Reads condition outcome) (path : String) :
    (members : List (String × Doc)) → ∀ parts,
      members.mapM (fun e => outcome path e.1 e.2) = .ok parts →
      ∃ fs groups, p.entries path members = .ok fs ∧ groups.flatten = parts.flatten ∧
        List.Forall₂ JoinOf groups fs
  | [] => by
    intro parts hparts
    cases hparts
    exact ⟨[], [], rfl, rfl, .nil⟩
  | (key, value) :: rest => by
    intro parts hparts
    rw [List.mapM_cons] at hparts
    obtain ⟨cs, hcs, hparts⟩ := (except_bind_ok ..).mp hparts
    obtain ⟨more, hmore, hparts⟩ := (except_bind_ok ..).mp hparts
    cases hparts
    obtain ⟨f, hf, hfirst⟩ := entry_reads h (fun path => object_reads h path value)
      (fun path => list_reads h path value) cs hcs
    obtain ⟨fs, groups, hfs, hflat, hjoins⟩ := entries_read h path rest more hmore
    have hentries : p.entries path ((key, value) :: rest) = .ok (f.toList ++ fs) := by
      rw [Phrasing.entries_cons, hf]
      simp only [hfs]
      rfl
    rw [List.flatten_cons, ← hflat]
    cases hfirst with
    | nothing => exact ⟨_, groups, hentries, rfl, hjoins⟩
    | something hfirst => exact ⟨_, cs :: groups, hentries, rfl, .cons hfirst hjoins⟩
end

end Phrased

section Aggregated

variable {k : AggregationKeys} {path key : String} {value : Doc}

/-- The items of a list in an aggregation object all stand at the path of the list. -/
theorem found_at_list (index : Nat) (items : List Doc) :
    k.phrasing.found k.condition path index items = (items.mapM fun item => do
      let members ← asRecord item path
      k.condition members path) := by
  induction items generalizing index with
  | nil => rfl
  | cons item rest ih =>
    rw [found_cons, ih, List.mapM_cons]
    rfl

theorem aggregation_joined (make : List Condition → Condition) :
    k.phrasing.joined k.condition make path value =
      (match value with
      | .list items => do
          let found ← items.mapM fun item => do
            let members ← asRecord item path
            k.condition members path
          return if (found.filterMap id).isEmpty then [] else [make (found.filterMap id)]
      | _ => .error (.argument path .expectedList)) := by
  cases value with
  | list items =>
    simp only [Phrasing.joined, Phrasing.foundIn]
    rw [found_at_list]
  | _ => rfl

theorem aggregation_field (h : key ∉ connectives) :
    k.entry k.condition path key value = k.comparisons path key value := by
  simp only [AggregationKeys.entry]
  split
  · exact absurd (by decide) h
  · exact absurd (by decide) h
  · exact absurd (by decide) h
  · rfl
  · rfl
  · rfl
  · simp only [AggregationKeys.comparisons]
    rfl

theorem aggregation_reads (k : AggregationKeys) :
    k.phrasing.Reads k.condition (k.entry k.condition) where
  object := by
    intro members path c h
    rw [AggregationKeys.condition_entries] at h
    simp only [except_bind_ok, except_pure_ok] at h
    obtain ⟨parts, hparts, rfl⟩ := h
    exact ⟨parts, hparts, rfl⟩
  all path value := by
    rw [aggregation_joined]
    cases value <;> rfl
  any path value := by
    rw [aggregation_joined]
    cases value <;> rfl
  not path value := rfl
  field path key value h := by
    rw [aggregation_field h]
    intro cs hcs
    refine ⟨Formula.leavesAll cs, ?_, says_leaves fun c hc => ?_⟩
    · simp only [AggregationKeys.phrasing, hcs]
      rfl
    · exact (comparisons_aggregate hcs c hc).isLeaf

end Aggregated

section Entries

variable {r : Reader} {keys : Keys} {path owner key : String} {value : Doc}

/-- A single condition. -/
theorem single_follows {x : Result Condition} (h : ∀ c, x = .ok c → c.IsLeaf) :
    Follows Forms (x.map some) (x.map fun c => some (.leaf c)) :=
  .map fun c hc => .leaf (h c hc)

/-- Conditions in conjunction. -/
theorem several_follow {x : Result (List Condition)} (h : ∀ cs, x = .ok cs → ∀ c ∈ cs, c.IsLeaf) :
    Follows Forms (x.map Condition.allOf) (x.map Formula.leavesAll) :=
  .map fun cs hcs => allOf_leaves (h cs hcs)

theorem compared_follows {subject : Subject} {a : Option Attribute} {op : Comparison}
    {mode : ClaimMode} :
    Follows Forms ((compared mode subject a op value false path).map some)
      ((compared mode subject a op value false path).map fun c => some (.leaf c)) :=
  single_follows fun _ hc => (compared_tests hc).isLeaf

theorem related_follows {below : Level} {relationship : Relationship} {quantifier : Quantifier}
    {node edge : Option Doc} :
    Follows Forms ((r.related below relationship quantifier node edge path).map some)
      ((r.related below relationship quantifier node edge path).map fun c => some (.leaf c)) :=
  single_follows fun _ hc => related_isLeaf hc

theorem connected_follows {below : Level} {relationship : Relationship} {quantifier : Quantifier} :
    Follows Forms ((r.connected below relationship quantifier value path).map some)
      ((r.connected below relationship quantifier value path).map fun c => some (.leaf c)) :=
  single_follows fun _ hc => connected_isLeaf hc

theorem value_reads {subject : Subject} {a : Option Attribute} :
    Follows Forms (r.valueOutcome subject a value path) (r.valueReading subject a value path) := by
  cases value with
  | record members =>
    refine .choose (several_follow fun cs hcs c hc => (operatorParts_tests hcs c hc).isLeaf) ?_
    split
    · exact compared_follows
    · exact .error _ _ _
  | _ =>
    simp only [Reader.valueOutcome, Reader.valueReading]
    exact compared_follows

theorem related_reads {relationship : Relationship} :
    Follows Forms (r.relatedOutcome r.condition relationship value path)
      (r.relatedReading relationship value path) := by
  cases value with
  | null => exact related_follows
  | record members =>
    refine .choose (several_follow fun cs hcs c hc => ?_) related_follows
    obtain ⟨entry, _, hentry⟩ := mem_of_mapM_ok hcs c hc
    obtain ⟨q, _, hrelated⟩ := (except_bind_ok ..).mp hentry
    exact related_isLeaf hrelated
  | _ => exact .error _ _ _

theorem aggregation_follows {relationship : Relationship} :
    Follows Forms (do
      let members ← asRecord value path
      r.aggregation relationship members path) (r.aggregationReading relationship value path) := by
  intro c hc
  obtain ⟨members, hmembers, hc⟩ := (except_bind_ok ..).mp hc
  obtain ⟨target, htarget, hc⟩ := (except_bind_ok ..).mp hc
  unfold Reader.aggregationReading
  rw [htarget]
  cases target with
  | entity e =>
    exact object_reads (aggregation_reads _) path value c
      ((except_bind_ok ..).mpr ⟨members, hmembers, hc⟩)
  | composite composite => cases hc

theorem connectionPart_reads {relationship : Relationship} {inner : Doc} :
    Follows Says (r.connectionPart r.condition relationship path key inner)
      (r.connectionPartReading relationship path key inner) := by
  refine .choose (fun cs hcs => ?_) (fun cs hcs => ?_)
  · simp only [except_bind_ok, except_pure_ok] at hcs
    obtain ⟨members, hmembers, c, hc, rfl⟩ := hcs
    obtain ⟨f, hf, hforms⟩ := aggregation_follows c
      ((except_bind_ok ..).mpr ⟨members, hmembers, hc⟩)
    exact ⟨f, hf, hforms.said⟩
  · simp only [except_bind_ok, except_pure_ok] at hcs
    obtain ⟨q, hq, c, hc, rfl⟩ := hcs
    refine ⟨some (.leaf c), ?_, (Forms.leaf (connected_isLeaf hc)).said⟩
    simp only [except_bind_ok, except_pure_ok]
    exact ⟨q, hq, c, hc, rfl⟩

theorem connection_reads {relationship : Relationship} :
    Follows Forms (r.connectionOutcome r.condition relationship value path)
      (r.connectionReading relationship value path) := by
  cases value with
  | null => exact related_follows
  | record members =>
    refine .choose ?_ connected_follows
    have hparts : Follows (List.Forall₂ Says)
        (members.mapM fun e => r.connectionPart r.condition relationship path e.1 e.2)
        (members.mapM fun e => r.connectionPartReading relationship path e.1 e.2) :=
      .mapM fun _ _ => connectionPart_reads
    intro c hc
    obtain ⟨groups, hgroups, rfl⟩ := (except_map_ok ..).mp hc
    obtain ⟨fs, hfs, hsaid⟩ := hparts groups hgroups
    obtain ⟨joins, hflat, hjoins⟩ := joins_of_said hsaid
    refine ⟨Formula.conjunction (fs.filterMap id), by rw [hfs]; rfl, ?_⟩
    rw [Function.comp_apply, ← hflat]
    exact allOf_joins hjoins
  | _ => exact .error _ _ _

/-- What counts as an unknown key is not read at all. -/
theorem known_follows {x : Result (Option Condition)} {y : Result (Option (Formula Condition))}
    (h : Follows Forms x y) : Follows Forms (x >>= Reader.orUnknown owner key) y := by
  intro c hc
  obtain ⟨c', hc', hknown⟩ := (except_bind_ok ..).mp hc
  cases c' with
  | none => cases hknown
  | some c' =>
    cases hknown
    exact h _ hc'

/-- What is read under a key that is no connective is a form of what the key says. -/
theorem formOutcome_reads (form : KeyForm) :
    Follows Forms (r.formOutcome r.condition owner key value path form)
      (r.formReading owner key value path form) := by
  cases form with
  | own subject a => exact value_reads
  | compared field op subject a => exact compared_follows
  | related relationship => exact related_reads
  | quantified field q relationship => exact related_follows
  | connection relationship => exact known_follows connection_reads
  | connected field q relationship => exact connected_follows
  | aggregate relationship =>
    have h : Follows Forms ((asRecord value path >>= fun members =>
        r.aggregation relationship members path) >>= Reader.orUnknown owner key)
        (r.aggregationReading relationship value path) := known_follows aggregation_follows
    rwa [bind_assoc] at h
  | unknown => exact .error _ _ _

theorem noting_ok {α : Type} {spelled : Option (String × Spelling)} {outcome : Result α} {a : α}
    {seen seen' : Entries Spelling} (h : noting spelled path outcome seen = .ok (a, seen')) :
    outcome = .ok a := by
  cases spelled with
  | none => exact ((lift_ok ..).mp h).1
  | some pair =>
    obtain ⟨_, _, _, hlift⟩ := (bind_ok ..).mp h
    exact ((lift_ok ..).mp hlift).1

/-- Entries that are read one after the other are each read to their outcome. -/
theorem entries_read_ok {below : Level} {members : Doc.Members} {parts : List Condition}
    {seen seen' : Entries Spelling}
    (h : r.entries below keys path members seen = .ok (parts, seen')) :
    ∃ groups, members.mapM (fun e => r.outcome below keys path e.1 e.2) = .ok groups ∧
      parts = groups.flatten := by
  induction members generalizing parts seen with
  | nil =>
    cases h
    exact ⟨[], rfl, rfl⟩
  | cons e rest ih =>
    simp only [Reader.entries, Reader.entry_eq, bind_ok, pure_ok] at h
    obtain ⟨cs, _, hfirst, more, _, hrest, rfl, rfl⟩ := h
    obtain ⟨groups, hgroups, rfl⟩ := ih hrest
    refine ⟨cs :: groups, ?_, List.flatten_cons.symm⟩
    rw [List.mapM_cons, noting_ok hfirst, hgroups]
    rfl

/-- The conditions under a connective are the objects of its list, joined. -/
theorem operands_joined (make : List Condition → Condition) :
    ((Reader.operands r.condition keys value path).map fun cs =>
      if cs.isEmpty then [] else [make cs]) =
      (r.phrasing keys).joined (r.condition keys) make path value := by
  have hfound : Reader.operands r.condition keys value path =
      ((r.phrasing keys).foundIn (r.condition keys) path value).map (List.filterMap id) := by
    cases value with
    | list items =>
      rw [Reader.operands, indexed, List.range_eq_range']
      rfl
    | _ => rfl
  rw [hfound, Phrasing.joined]
  cases (r.phrasing keys).foundIn (r.condition keys) path value <;> rfl

theorem reader_reads (r : Reader) (keys : Keys) :
    (r.phrasing keys).Reads (r.condition keys) (r.outcome r.condition keys) where
  object := by
    intro members path c h
    rw [Reader.condition_entries] at h
    obtain ⟨⟨parts, seen⟩, hparts, hc⟩ := (except_bind_ok ..).mp h
    cases hc
    obtain ⟨groups, hgroups, rfl⟩ := entries_read_ok hparts
    exact ⟨groups, hgroups, rfl⟩
  all path value := operands_joined .all
  any path value := operands_joined .any
  not path value := rfl
  field path key value h := by
    rw [Reader.outcome_of_field _ _ h]
    intro cs hcs
    obtain ⟨c, hc, rfl⟩ := (except_map_ok ..).mp hcs
    obtain ⟨f, hf, hforms⟩ := formOutcome_reads _ c hc
    exact ⟨f, hf, hforms.said⟩

end Entries

end GraphSelection.Resolve

namespace GraphSelection.Stage

/-- Connectives inside one another, with objects that constrain nothing among them. -/
def combined : Doc.Members :=
  [("AND", .list
      [.record [],
       .record [("name", .record [("startsWith", .text "A"), ("endsWith", .text "n")])]]),
   ("OR", .list
      [.record [("born_GT", .int 1930)],
       .record [("AND", .list [.record [("films_SOME", .record [("NOT", .record [])])]])]]),
   ("NOT", .record
      [("OR", .list [.record [("filmsAggregate", .record [("count_GT", .int 2)])],
        .record [("AND", .list [])]])])]

end GraphSelection.Stage

namespace GraphSelection.Resolve

open GraphSelection Plan Program Cypher

/-- The predicate of an object of conditions has the truth of what the object says. There is a
condition exactly when the object says something, and it then compiles wherever the object may
stand, like the leaves that are said, one after the other; however the conjunctions in it are
flattened, single members unwrapped and guards merged, the predicate is true, false or unknown of a
row as the reading is for the truth that its leaves have there. -/
theorem predicate_means_reading (r : Reader) {keys : Keys} (hknown : keys.Known r.setup.schema)
    {members : Doc.Members} {path : String} {found : Option Condition}
    (h : r.condition keys members path = .ok found) :
    ∃ said, r.reading keys members path = .ok said ∧ (found = none ↔ said = none) ∧
      ∀ c ∈ found, ∃ f ∈ said, (∀ a ∈ f.leaves, a.IsLeaf) ∧
        ∀ ctx : Context, ctx.HasEdge keys.atEdge → ∀ q s, ∃ e g q' s',
          Condition.predicate ctx c q s = .ok ((e, q'), s') ∧
          Formula.predicate ctx f q s = .ok ((g, q'), s') ∧
          ∀ row : Expr → Truth, e.truth row = g.truth fun leaf => leaf.truth row := by
  obtain ⟨said, hsaid, hforms⟩ := object_reads (reader_reads r keys) path (.record members) found h
  refine ⟨said, hsaid, ?_⟩
  cases hforms with
  | none => exact ⟨by simp, nofun⟩
  | @some c f hform =>
    refine ⟨by simp, fun c' hc => ?_⟩
    cases hc
    refine ⟨f, rfl, hform.leaves, fun ctx hedge q s => ?_⟩
    have hfits : c.Fits Stated keys.atEdge :=
      (Reader.conditionAt_fits r _ keys members path c hknown h).mono (fun _ ha => ha.1) id
    obtain ⟨⟨e, q'⟩, s', hrun, _⟩ := ((decides_of_fits hfits ctx hedge).run q).run s
    obtain ⟨g, hg, htruth⟩ := hform.compiled ctx hrun
    exact ⟨e, g, q', s', hrun, hg, htruth⟩

theorem combined_means_reading :
    ∃ c f, Reader.condition ⟨Stage.studio, false⟩ (.node Stage.director) Stage.combined
        "where" = .ok (some c) ∧
      Reader.reading ⟨Stage.studio, false⟩ (.node Stage.director) Stage.combined
        "where" = .ok (some f) ∧ f.leaves.length = 5 ∧
      ∃ e g q s, Condition.predicate Stage.context c {} {} = .ok ((e, q), s) ∧
        Formula.predicate Stage.context f {} {} = .ok ((g, q), s) ∧
        ∀ row : Expr → Truth, e.truth row = g.truth fun leaf => leaf.truth row := by
  obtain ⟨c, hc⟩ : ∃ c, Reader.condition ⟨Stage.studio, false⟩ (.node Stage.director)
      Stage.combined "where" = .ok (some c) := ⟨_, rfl⟩
  obtain ⟨f, hf, hleaves⟩ : ∃ f, Reader.reading ⟨Stage.studio, false⟩ (.node Stage.director)
      Stage.combined "where" = .ok (some f) ∧ f.leaves.length = 5 := ⟨_, rfl, rfl⟩
  have hknown : (Keys.node Stage.director).Known Stage.studio.schema := List.mem_cons_self
  obtain ⟨said, hsaid, _, hmeans⟩ := predicate_means_reading _ hknown hc
  cases hf.symm.trans hsaid
  obtain ⟨f', hf', _, hcompiled⟩ := hmeans c rfl
  cases hf'
  obtain ⟨e, g, q, s, he, hg, htruth⟩ := hcompiled Stage.context (hasEdge_false _) {} {}
  exact ⟨c, f, hc, hf, hleaves, e, g, q, s, he, hg, htruth⟩

end GraphSelection.Resolve
