import GraphSelection.Proofs.AskedBy.Conditions
import GraphSelection.Proofs.Truth
import GraphSelection.Proofs.WellScoped

/-!
Rules whose claims are missing. A missing claim is a null parameter behind a guard that fails, so
a comparison with it is false, not unknown. The predicate of a rule all of whose comparisons miss
a claim is therefore decided by the connectives of the rule alone: it is never true as long as the
rule negates nothing, and a negated comparison with a missing claim is true of every node.
-/
namespace GraphSelection.Cypher

/-- The values that expressions have: parameters as they are bound, properties and everything else
at will. -/
structure Valuation where
  param : String → Doc
  value : Expr → Doc
  /-- Comparisons of values that are there. -/
  compare : BinaryOp → Doc → Doc → Truth
  /-- Tests that are no comparisons. -/
  test : Expr → Truth

namespace Valuation

def datum (v : Valuation) : Expr → Doc
  | .param x => v.param x
  | .literal .null => .null
  | e => v.value e

/-- A comparison with null is unknown; a test for null is not. -/
def row (v : Valuation) : Expr → Truth
  | .isNull e => if (v.datum e).isNull then .yes else .no
  | .isNotNull e => if (v.datum e).isNull then .no else .yes
  | .binary left op right =>
      if (v.datum left).isNull || (v.datum right).isNull then .unknown
      else v.compare op (v.datum left) (v.datum right)
  | e => v.test e

/-- Parameters have the values that they were made with. -/
def Binds (v : Valuation) (params : Entries Doc) : Prop :=
  ∀ x value, (x, value) ∈ params → v.param x = value

theorem Binds.mono {v : Valuation} {params more : Entries Doc} (h : v.Binds more)
    (hearlier : params <+: more) : v.Binds params :=
  fun x value hmem => h x value (hearlier.subset hmem)

end Valuation

namespace Truth

def ofBool (b : Bool) : Truth := if b then .yes else .no

theorem and_assoc (a b c : Truth) : (a.and b).and c = a.and (b.and c) := by
  cases a <;> cases b <;> cases c <;> rfl

theorem or_assoc (a b c : Truth) : (a.or b).or c = a.or (b.or c) := by
  cases a <;> cases b <;> cases c <;> rfl

theorem and_yes_right (a : Truth) : a.and .yes = a := by cases a <;> rfl

theorem or_no_right (a : Truth) : a.or .no = a := by cases a <;> rfl

theorem and_no_right (a : Truth) : a.and .no = .no := by cases a <;> rfl

theorem ofBool_and (a b : Bool) : (ofBool a).and (ofBool b) = ofBool (a && b) := by
  cases a <;> cases b <;> rfl

theorem ofBool_or (a b : Bool) : (ofBool a).or (ofBool b) = ofBool (a || b) := by
  cases a <;> cases b <;> rfl

theorem ofBool_not (a : Bool) : (ofBool a).not = ofBool (!a) := by cases a <;> rfl

end Truth

namespace Expr

variable (row : Expr → Truth)

theorem truthOfAll_append (es es' : List Expr) :
    Expr.truthOfAll row (es ++ es') =
      (Expr.truthOfAll row es).and (Expr.truthOfAll row es') := by
  induction es with
  | nil => rfl
  | cons e rest ih =>
    simp only [List.cons_append, Expr.truthOfAll]
    rw [ih, Truth.and_assoc]

theorem truthOfAny_append (es es' : List Expr) :
    Expr.truthOfAny row (es ++ es') = (Expr.truthOfAny row es).or (Expr.truthOfAny row es') := by
  induction es with
  | nil => rfl
  | cons e rest ih =>
    simp only [List.cons_append, Expr.truthOfAny]
    rw [ih, Truth.or_assoc]

theorem truthOfAll_conjuncts (e : Expr) : Expr.truthOfAll row e.conjuncts = e.truth row := by
  unfold Expr.conjuncts
  split
  · rw [Expr.truth]
  · rw [Expr.truthOfAll, Expr.truthOfAll, Truth.and_yes_right]

theorem truthOfAny_disjuncts (e : Expr) : Expr.truthOfAny row e.disjuncts = e.truth row := by
  unfold Expr.disjuncts
  split
  · rw [Expr.truth]
  · rw [Expr.truthOfAny, Expr.truthOfAny, Truth.or_no_right]

/-- A conjunction has the truth of its members, however they are put together. -/
theorem truth_allOf (es : List Expr) :
    ((Expr.allOf es).getD (.bool true)).truth row = Expr.truthOfAll row es := by
  have hflat : Expr.truthOfAll row (es.flatMap Expr.conjuncts) = Expr.truthOfAll row es := by
    induction es with
    | nil => rfl
    | cons e rest ih =>
      rw [List.flatMap_cons, truthOfAll_append, truthOfAll_conjuncts, ih, Expr.truthOfAll]
  rw [← hflat]
  unfold Expr.allOf
  split
  · rename_i hnil
    rw [hnil]
    rfl
  · rename_i e hone
    rw [hone, Option.getD_some, Expr.truthOfAll, Expr.truthOfAll, Truth.and_yes_right]
  · rw [Option.getD_some, Expr.truth]

/-- A disjunction has the truth of its members, however they are put together. -/
theorem truth_anyOf (es : List Expr) :
    ((Expr.anyOf es).getD (.bool false)).truth row = Expr.truthOfAny row es := by
  have hflat : Expr.truthOfAny row (es.flatMap Expr.disjuncts) = Expr.truthOfAny row es := by
    induction es with
    | nil => rfl
    | cons e rest ih =>
      rw [List.flatMap_cons, truthOfAny_append, truthOfAny_disjuncts, ih, Expr.truthOfAny]
  rw [← hflat]
  unfold Expr.anyOf
  split
  · rename_i hnil
    rw [hnil]
    rfl
  · rename_i e hone
    rw [hone, Option.getD_some, Expr.truthOfAny, Expr.truthOfAny, Truth.or_no_right]
  · rw [Option.getD_some, Expr.truth]

theorem truthOfAll_no {es : List Expr} {e : Expr} (hmem : e ∈ es) (he : e.truth row = .no) :
    Expr.truthOfAll row es = .no := by
  induction es with
  | nil => simp at hmem
  | cons first rest ih =>
    rw [Expr.truthOfAll]
    rcases List.mem_cons.mp hmem with rfl | hmem
    · rw [he]
      rfl
    · rw [ih hmem, Truth.and_no_right]

end Expr

end GraphSelection.Cypher

namespace GraphSelection.Plan

def Subject.Misses (p : Principal) : Subject → Prop
  | .claim path _ => p.claim? path = none
  | _ => False

def Operand.Misses (p : Principal) : Operand → Prop
  | .claim path _ => p.claim? path = none
  | _ => False

/-- Every leaf compares with a claim that the principal does not have. -/
inductive Condition.Misses (p : Principal) : Condition → Prop
  | all {items : List Condition} (h : ∀ c ∈ items, Condition.Misses p c) :
      Condition.Misses p (.all items)
  | any {items : List Condition} (h : ∀ c ∈ items, Condition.Misses p c) :
      Condition.Misses p (.any items)
  | not {c : Condition} (h : Condition.Misses p c) : Condition.Misses p (.not c)
  | compare {subject : Subject} {operand : Operand} (op : Comparison) (caseInsensitive : Bool)
      (h : subject.Misses p ∨ operand.Misses p) :
      Condition.Misses p (.compare subject op operand caseInsensitive)

mutual
/-- Whether the connectives are satisfied by leaves all of which fail. -/
def Condition.holdsIdly : Condition → Bool
  | .all items => Condition.allHoldIdly items
  | .any items => Condition.anyHoldsIdly items
  | .not c => !c.holdsIdly
  | _ => false
def Condition.allHoldIdly : List Condition → Bool
  | [] => true
  | c :: rest => c.holdsIdly && Condition.allHoldIdly rest
def Condition.anyHoldsIdly : List Condition → Bool
  | [] => false
  | c :: rest => c.holdsIdly || Condition.anyHoldsIdly rest
end

/-- Nothing is negated, and every conjunction asks for something. -/
inductive Condition.Affirms : Condition → Prop
  | all {c : Condition} {rest : List Condition} (h : Condition.Affirms c) :
      Condition.Affirms (.all (c :: rest))
  | any {items : List Condition} (h : ∀ c ∈ items, Condition.Affirms c) :
      Condition.Affirms (.any items)
  | compare (subject : Subject) (op : Comparison) (operand : Operand) (caseInsensitive : Bool) :
      Condition.Affirms (.compare subject op operand caseInsensitive)

theorem Condition.anyHoldsIdly_false {cs : List Condition} (h : ∀ c ∈ cs, c.holdsIdly = false) :
    Condition.anyHoldsIdly cs = false := by
  induction cs with
  | nil => rfl
  | cons c rest ih =>
    have hfirst : c.holdsIdly = false := h c List.mem_cons_self
    have hrest : Condition.anyHoldsIdly rest = false :=
      ih fun c hc => h c (List.mem_cons_of_mem _ hc)
    rw [Condition.anyHoldsIdly, hfirst, hrest, Bool.or_false]

/-- What affirms does not hold for nothing. -/
theorem Condition.Affirms.not_holdsIdly {c : Condition} (h : c.Affirms) : c.holdsIdly = false := by
  induction h with
  | all _ ih => rw [Condition.holdsIdly, Condition.allHoldIdly, ih, Bool.false_and]
  | any _ ih => rw [Condition.holdsIdly, Condition.anyHoldsIdly_false ih]
  | compare => rfl

end GraphSelection.Plan

namespace GraphSelection.Program

open Cypher Plan

section Leaves

variable {p : Principal} {ctx : Context} {q r : Subqueries} {s t : Supply}

/-- Guards that are not satisfied, whatever else a row says. -/
def Blocks (v : Valuation) (guards : List Expr) : Prop := ∃ e ∈ guards, e.truth v.row = .no

theorem claimParam_ok {value : Option Doc} {guards : List Expr} {e : Expr}
    (h : claimParam value s = .ok ((guards, e), t)) :
    s.params <+: t.params ∧
      (value = none → ∀ v : Valuation, v.Binds t.params → Blocks v guards) := by
  simp only [claimParam, bind_ok, pure_ok, param_ok, Prod.mk.injEq] at h
  obtain ⟨_, _, ⟨rfl, rfl⟩, ⟨rfl, rfl⟩, rfl⟩ := h
  refine ⟨List.prefix_append _ _, ?_⟩
  rintro rfl v hbinds
  have hnull : v.param (s.name "param") = .null := hbinds _ _ (by simp)
  refine ⟨_, List.mem_singleton_self _, ?_⟩
  simp [Expr.truth, Valuation.row, Valuation.datum, hnull, Doc.isNull]

theorem computedCall_params {a : Attribute} {result : String} {clause : Clause}
    (h : computedCall ctx a result s = .ok (clause, t)) : t.params = s.params := by
  cases hcomputation : a.computation with
  | none => simp only [computedCall, hcomputation, fail_ok] at h
  | some computation =>
    simp only [computedCall, hcomputation, bind_ok, fresh_ok, pure_ok] at h
    obtain ⟨_, _, ⟨_, rfl⟩, _, rfl⟩ := h
    exact rfl

theorem subjectExpr_ok {subject : Subject} {guards : List Expr} {e : Expr}
    (h : subjectExpr ctx subject q s = .ok (((guards, e), r), t)) :
    s.params <+: t.params ∧
      (∀ path, subject = .claim path none →
        ∀ v : Valuation, v.Binds t.params → Blocks v guards) := by
  cases subject with
  | node a =>
    simp only [subjectExpr, predicate_pure_ok] at h
    obtain ⟨_, _, rfl⟩ := h
    exact ⟨List.prefix_refl _, by simp⟩
  | edge a =>
    simp only [subjectExpr, predicate_bind_ok, predicate_fault_ok, predicate_pure_ok] at h
    obtain ⟨_, _, _, ⟨_, _, rfl⟩, _, _, rfl⟩ := h
    exact ⟨List.prefix_refl _, by simp⟩
  | computed a =>
    simp only [subjectExpr, predicate_bind_ok, predicate_pure_ok] at h
    obtain ⟨name, q', u, hshared, _, _, rfl⟩ := h
    refine ⟨?_, by simp⟩
    rcases shared_ok _ _ _ _ _ _ _ hshared with ⟨_, _, rfl⟩ | ⟨clause, _, hcall, _⟩
    · exact List.prefix_refl _
    · have hparams := computedCall_params hcall
      exact hparams ▸ List.prefix_refl _
  | claim path value =>
    simp only [subjectExpr, predicate_lift_ok] at h
    obtain ⟨hclaim, rfl⟩ := h
    obtain ⟨hparams, hblocks⟩ := claimParam_ok hclaim
    refine ⟨hparams, ?_⟩
    rintro path' hsubject
    cases hsubject
    exact hblocks rfl

theorem operandExpr_ok {kind : Option ScalarKind} {op : Comparison} {operand : Operand}
    {guards : List Expr} {e : Expr} (h : operandExpr kind op operand s = .ok ((guards, e), t)) :
    s.params <+: t.params ∧
      (∀ path, operand = .claim path none →
        ∀ v : Valuation, v.Binds t.params → Blocks v guards) := by
  cases operand with
  | literal value =>
    refine ⟨?_, by simp⟩
    simp only [operandExpr] at h
    split at h
    all_goals
      simp only [typedListParam, typedParam, bind_ok, pure_ok, param_ok] at h
      obtain ⟨_, _, ⟨_, _, ⟨_, rfl⟩, _, rfl⟩, _, rfl⟩ := h
      exact List.prefix_append _ _
  | claim path value =>
    obtain ⟨hparams, hblocks⟩ := claimParam_ok h
    refine ⟨hparams, ?_⟩
    rintro path' hoperand
    cases hoperand
    exact hblocks rfl

/-- A comparison with a claim that is not there is false, whatever it is compared with. -/
theorem comparePredicate_missing {subject : Subject} {op : Comparison} {operand : Operand}
    {caseInsensitive : Bool} {e : Expr} (hsubject : subject.askedBy p = subject)
    (hoperand : operand.askedBy p = operand) (hmisses : subject.Misses p ∨ operand.Misses p)
    (h : comparePredicate ctx subject op operand caseInsensitive q s = .ok ((e, r), t)) :
    s.params <+: t.params ∧ ∀ v : Valuation, v.Binds t.params → e.truth v.row = .no := by
  simp only [comparePredicate, predicate_bind_ok, predicate_lift_ok, predicate_pure_ok] at h
  obtain ⟨⟨leftGuards, left⟩, q', u, hleft, ⟨rightGuards, right⟩, _, _, ⟨hright, rfl⟩, rfl, rfl,
    rfl⟩ := h
  obtain ⟨hfirst, hleftBlocks⟩ := subjectExpr_ok hleft
  obtain ⟨hsecond, hrightBlocks⟩ := operandExpr_ok hright
  refine ⟨hfirst.trans hsecond, ?_⟩
  intro v hbinds
  have hblocks : Blocks v (leftGuards ++ rightGuards) := by
    rcases hmisses with hmisses | hmisses
    · cases subject with
      | claim path value =>
        have hvalue : p.claim? path = value := (Subject.claim.inj hsubject).2
        have hnone : value = none := hvalue ▸ hmisses
        subst hnone
        obtain ⟨guard, hguard, hno⟩ := hleftBlocks path rfl v (hbinds.mono hsecond)
        exact ⟨guard, List.mem_append_left _ hguard, hno⟩
      | _ => exact hmisses.elim
    · cases operand with
      | claim path value =>
        have hvalue : p.claim? path = value := (Operand.claim.inj hoperand).2
        have hnone : value = none := hvalue ▸ hmisses
        subst hnone
        obtain ⟨guard, hguard, hno⟩ := hrightBlocks path rfl v hbinds
        exact ⟨guard, List.mem_append_right _ hguard, hno⟩
      | literal value => exact hmisses.elim
  obtain ⟨guard, hguard, hno⟩ := hblocks
  rw [Expr.truth_allOf]
  exact Expr.truthOfAll_no v.row (List.mem_append_left _ hguard) hno

end Leaves

-- The induction follows the building of predicates; the parameters of a part are kept by all the
-- parts after it.
mutual
theorem predicate_missing {p : Principal} (ctx : Context) : (c : Condition) →
    c.askedBy p = c → c.Misses p → ∀ {e : Expr} {q r : Subqueries} {s t : Supply},
    Condition.predicate ctx c q s = .ok ((e, r), t) →
    s.params <+: t.params ∧
      ∀ v : Valuation, v.Binds t.params → e.truth v.row = Truth.ofBool c.holdsIdly
  | .all items => by
    intro hown hmisses e q r s t h
    cases hmisses with
    | all hitems =>
      simp only [Condition.predicate, predicate_bind_ok, predicate_pure_ok] at h
      obtain ⟨es, _, _, hes, rfl, rfl, rfl⟩ := h
      obtain ⟨hparams, hall, _⟩ := predicates_missing ctx items (Condition.all.inj hown) hitems hes
      refine ⟨hparams, fun v hbinds => ?_⟩
      rw [Expr.truth_allOf, hall v hbinds, Condition.holdsIdly]
  | .any items => by
    intro hown hmisses e q r s t h
    cases hmisses with
    | any hitems =>
      simp only [Condition.predicate, predicate_bind_ok, predicate_pure_ok] at h
      obtain ⟨es, _, _, hes, rfl, rfl, rfl⟩ := h
      obtain ⟨hparams, _, hany⟩ := predicates_missing ctx items (Condition.any.inj hown) hitems hes
      refine ⟨hparams, fun v hbinds => ?_⟩
      rw [Expr.truth_anyOf, hany v hbinds, Condition.holdsIdly]
  | .not c => by
    intro hown hmisses e q r s t h
    cases hmisses with
    | not hc =>
      simp only [Condition.predicate, predicate_bind_ok, predicate_pure_ok] at h
      obtain ⟨e', _, _, he, rfl, rfl, rfl⟩ := h
      obtain ⟨hparams, htruth⟩ := predicate_missing ctx c (Condition.not.inj hown) hc he
      refine ⟨hparams, fun v hbinds => ?_⟩
      rw [Expr.truth, htruth v hbinds, Truth.ofBool_not, Condition.holdsIdly]
  | .compare subject op operand caseInsensitive => by
    intro hown hmisses e q r s t h
    cases hmisses with
    | compare _ _ hleaf =>
      obtain ⟨hsubject, _, hoperand, _⟩ := Condition.compare.inj hown
      exact comparePredicate_missing hsubject hoperand hleaf h
  | .nullness _ _ | .labels _ | .related _ _ _ _ _ | .aggregation _ | .authenticated => by
    intro _ hmisses
    cases hmisses
theorem predicates_missing {p : Principal} (ctx : Context) : (cs : List Condition) →
    Condition.eachAskedBy p cs = cs → (∀ c ∈ cs, c.Misses p) →
    ∀ {es : List Expr} {q r : Subqueries} {s t : Supply},
    Condition.predicates ctx cs q s = .ok ((es, r), t) →
    s.params <+: t.params ∧
      (∀ v : Valuation, v.Binds t.params →
        Expr.truthOfAll v.row es = Truth.ofBool (Condition.allHoldIdly cs)) ∧
      ∀ v : Valuation, v.Binds t.params →
        Expr.truthOfAny v.row es = Truth.ofBool (Condition.anyHoldsIdly cs)
  | [] => by
    intro _ _ es q r s t h
    simp only [Condition.predicates, predicate_pure_ok] at h
    obtain ⟨rfl, rfl, rfl⟩ := h
    exact ⟨List.prefix_refl _, fun _ _ => rfl, fun _ _ => rfl⟩
  | c :: rest => by
    intro hown hmisses es q r s t h
    obtain ⟨hfirst, hothers⟩ := List.cons.inj hown
    simp only [Condition.predicates, predicate_bind_ok, predicate_pure_ok] at h
    obtain ⟨e, _, u, he, es', _, _, hes, rfl, rfl, rfl⟩ := h
    obtain ⟨hparams, htruth⟩ :=
      predicate_missing ctx c hfirst (hmisses c List.mem_cons_self) he
    obtain ⟨hmore, hall, hany⟩ := predicates_missing ctx rest hothers
      (fun c hc => hmisses c (List.mem_cons_of_mem _ hc)) hes
    refine ⟨hparams.trans hmore, fun v hbinds => ?_, fun v hbinds => ?_⟩
    · rw [Expr.truthOfAll, htruth v (hbinds.mono hmore), hall v hbinds, Truth.ofBool_and,
        Condition.allHoldIdly]
    · rw [Expr.truthOfAny, htruth v (hbinds.mono hmore), hany v hbinds, Truth.ofBool_or,
        Condition.anyHoldsIdly]
end

end GraphSelection.Program

namespace GraphSelection.Stage

open Plan Program Resolve

/-- A rule of the stage's persons with templates of its own. -/
def ruled (node claims : Option Doc) : Declared :=
  ⟨"Person.authorization[0]", { ownNode with node, claims }⟩

/-- Persons of the principal's name or team, for principals whose roles include one. -/
def team : Declared :=
  ruled
    (some (.record [("OR", .list
      [.record [("name", .text "$jwt.sub")], .record [("name_STARTS_WITH", .text "$jwt.team")]])]))
    (some (.record [("roles", .record [("includes", .text "member")])]))

/-- Persons of another name than the principal's. -/
def others : Declared :=
  ruled (some (.record [("NOT", .record [("name", .text "$jwt.sub")])])) none

def context : Context := .root ⟨false, "Forbidden"⟩ "this0" "result"

def nameIs (op : Comparison) (claim : String) : Condition :=
  .compare (.node { name := "name", kind := .string }) op (.claim claim none) false

end GraphSelection.Stage

namespace GraphSelection.Resolve

open Cypher Plan Program

/-- A rule taken for its templates alone, whether or not it also asks for a principal that is
signed in. -/
def Declared.templates (d : Declared) : Declared :=
  { d with rule := { d.rule with needsAuthentication := false } }

/-- The claims that a rule speaks of are those of the principal that asks. -/
theorem ruleCondition_own {s : Setup} {e : Entity} {d : Declared} {c : Condition}
    (h : ruleCondition s e d = .ok (some c)) : c.askedBy s.principal = c := by
  have hsame : ruleCondition (s.askedBy s.principal) e d =
      Option.map (Condition.askedBy s.principal) <$> ruleCondition s e d :=
    ruleCondition_askedBy e d
  change ruleCondition s e d = _ at hsame
  rw [h] at hsame
  exact (Option.some.inj (Except.ok.inj hsame)).symm

/-- Where every comparison of a rule needs a claim that the principal does not have, the predicate
of its templates is true of all nodes or false of all nodes, by its connectives alone. It is never
true when the rule negates nothing. -/
theorem templates_of_missing_claims (s : Setup) (e : Entity) (d : Declared) (c : Condition)
    (hrule : ruleCondition s e d.templates = .ok (some c)) (hmisses : c.Misses s.principal)
    (ctx : Context) (q r : Subqueries) (s₀ s₁ : Supply) (predicate : Expr)
    (h : Condition.predicate ctx c q s₀ = .ok ((predicate, r), s₁)) (v : Valuation)
    (hbinds : v.Binds s₁.params) :
    (predicate.truth v.row = if c.holdsIdly then .yes else .no) ∧
      (c.Affirms → predicate.truth v.row ≠ .yes) := by
  obtain ⟨_, htruth⟩ := predicate_missing ctx c (ruleCondition_own hrule) hmisses h
  have hdecided : predicate.truth v.row = Truth.ofBool c.holdsIdly := htruth v hbinds
  refine ⟨hdecided, fun haffirms => ?_⟩
  rw [hdecided, haffirms.not_holdsIdly]
  decide

theorem team_refused :
    ∃ c predicate r t, ruleCondition Stage.setup Stage.person Stage.team.templates = .ok (some c) ∧
      Condition.predicate Stage.context c {} {} = .ok ((predicate, r), t) ∧
      ∀ v : Valuation, v.Binds t.params → predicate.truth v.row ≠ .yes := by
  let hasRole : Condition :=
    .compare (.claim "roles" none) .includes (.literal (.text "member")) false
  let named : Condition := .any [Stage.nameIs .eq "sub", Stage.nameIs .startsWith "team"]
  have hnamed : named.Misses Stage.setup.principal := by
    refine .any fun c hc => ?_
    simp only [List.mem_cons, List.not_mem_nil, or_false] at hc
    rcases hc with rfl | rfl <;> exact .compare _ _ (.inr rfl)
  have hmisses : (Condition.all [named, hasRole]).Misses Stage.setup.principal := by
    refine .all fun c hc => ?_
    simp only [List.mem_cons, List.not_mem_nil, or_false] at hc
    rcases hc with rfl | rfl
    · exact hnamed
    · exact .compare _ _ (.inl rfl)
  have haffirms : (Condition.all [named, hasRole]).Affirms := by
    refine .all (.any fun c hc => ?_)
    simp only [List.mem_cons, List.not_mem_nil, or_false] at hc
    rcases hc with rfl | rfl <;> exact .compare ..
  have hrule : ruleCondition Stage.setup Stage.person Stage.team.templates =
      .ok (some (.all [named, hasRole])) := by rfl
  refine ⟨_, _, _, _, hrule, rfl, fun v hbinds => ?_⟩
  exact (templates_of_missing_claims Stage.setup Stage.person Stage.team _ hrule hmisses
    Stage.context {} _ {} _ _ rfl v hbinds).2 haffirms

/-- A negated comparison with a missing claim lets a principal without any claims see every
node. -/
theorem others_open :
    ∃ c predicate r t,
      ruleCondition Stage.setup Stage.person Stage.others.templates = .ok (some c) ∧
      c.Misses Stage.setup.principal ∧
      Condition.predicate Stage.context c {} {} = .ok ((predicate, r), t) ∧
      ∀ v : Valuation, v.Binds t.params → predicate.truth v.row = .yes := by
  have hmisses : (Condition.not (Stage.nameIs .eq "sub")).Misses Stage.setup.principal :=
    .not (.compare _ _ (.inr rfl))
  refine ⟨.not (Stage.nameIs .eq "sub"), _, _, _, rfl, hmisses, rfl, fun v hbinds => ?_⟩
  exact (predicate_missing Stage.context _ rfl hmisses (q := {}) rfl).2 v hbinds

end GraphSelection.Resolve
