import GraphSelection.Proofs.Runs
import GraphSelection.Proofs.Scoped.Basic

/-!
Expressions without variables, reductions, and the two calls a predicate can depend on: the value
of a computed attribute and a compared aggregation.
-/
namespace GraphSelection.Scoping

open Cypher Plan Program Minting

/-- The statement of the attribute returns its declared column, which is no minted name. -/
def Honest (returns : String → Names) (a : Attribute) : Prop :=
  ∀ c, a.computation = some c →
    returns c.statement = [c.column] ∧ ∀ n, ¬ Minted n c.column

section

variable {returns : String → Names}

/-- The expression refers to no name at all. -/
def Closed (returns : String → Names) (e : Expr) : Prop := ∀ scope, Refers returns scope e

theorem closed_construct {e : Expr} (kind : Option ScalarKind) (h : Closed returns e) :
    Closed returns (construct kind e) := by
  intro scope
  unfold construct
  split
  · refine .apply _ ?_
    intro e' he'
    rw [List.mem_singleton] at he'
    subst he'
    exact h scope
  · exact h scope

theorem closed_constructEach {e : Expr} (kind : Option ScalarKind) (h : Closed returns e) :
    Closed returns (constructEach kind e) := by
  intro scope
  unfold constructEach
  split
  · refine .comprehension (h scope) (.apply _ ?_)
    intro e' he'
    rw [List.mem_singleton] at he'
    subst he'
    exact .var List.mem_cons_self
  · exact h scope

theorem closed_param (returns : String → Names) {value : Doc} {e : Expr} {s t : Supply}
    (h : param value s = .ok (e, t)) : s.next + 1 = t.next ∧ Closed returns e := by
  rw [param_ok] at h
  obtain ⟨rfl, rfl⟩ := h
  exact ⟨rfl, fun scope => .param _⟩

theorem closed_typedParam (returns : String → Names) {value : Doc} {kind : Option ScalarKind}
    {e : Expr} {s t : Supply} (h : typedParam value kind s = .ok (e, t)) :
    s.next + 1 = t.next ∧ Closed returns e := by
  simp only [typedParam, bind_ok, pure_ok] at h
  obtain ⟨p, u, hp, rfl, rfl⟩ := h
  obtain ⟨hnext, hclosed⟩ := closed_param returns hp
  exact ⟨hnext, closed_construct kind hclosed⟩

theorem closed_typedListParam (returns : String → Names) {value : Doc} {kind : Option ScalarKind}
    {e : Expr} {s t : Supply} (h : typedListParam value kind s = .ok (e, t)) :
    s.next + 1 = t.next ∧ Closed returns e := by
  simp only [typedListParam, bind_ok, pure_ok] at h
  obtain ⟨p, u, hp, rfl, rfl⟩ := h
  obtain ⟨hnext, hclosed⟩ := closed_param returns hp
  exact ⟨hnext, closed_constructEach kind hclosed⟩

theorem refers_apply {scope : Names} {e : Expr} (f : String) (h : Refers returns scope e) :
    Refers returns scope (.apply f [e]) := by
  refine .apply f ?_
  intro e' he'
  rw [List.mem_singleton] at he'
  subst he'
  exact h

theorem refers_propertyOf {scope : Names} {x : String} (key : String) (h : x ∈ scope) :
    Refers returns scope (.propertyOf x key) :=
  .property key (.var h)

theorem refers_comparison {scope : Names} {l r : Expr} (op : Comparison)
    (hl : Refers returns scope l) (hr : Refers returns scope r) :
    Refers returns scope (comparison op l r) := by
  cases op with
  | includes => exact .binary _ hr hl
  | _ => exact .binary _ hl hr

theorem refers_collected {scope : Names} {e : Expr} (isList : Bool)
    (h : Refers returns scope e) : Refers returns scope (collected e isList) := by
  unfold collected
  split
  · exact refers_apply _ h
  · exact refers_apply _ (refers_apply _ h)

/-- What comes before a reduction keeps the scope, and the reduction refers to it. -/
theorem runs_reduce {scope : Names} {value : Expr} (f : Reduction)
    (h : Refers returns scope value) :
    Runs returns scope (reduce value f).1 scope ∧ Refers returns scope (reduce value f).2 := by
  have hwindow : Runs returns scope [.window [⟨.apply "size" [value], true⟩] none none] scope := by
    refine .single (step_window ?_ (by simp) (by simp))
    intro k hk
    rw [List.mem_singleton] at hk
    subst hk
    exact refers_apply _ h
  cases f with
  | longest => exact ⟨hwindow, refers_apply _ (refers_apply _ h)⟩
  | shortest => exact ⟨hwindow, refers_apply _ (refers_apply _ h)⟩
  | averageLength => exact ⟨.nil, refers_apply _ (refers_apply _ h)⟩
  | _ => exact ⟨.nil, refers_apply _ h⟩

theorem runs_measured {scope : Names} {m : Measure} {node : String} {edge : Option String}
    {reduced : Reduced} (h : measured m node edge = .ok reduced) (hnode : node ∈ scope)
    (hedge : ∀ x ∈ edge, x ∈ scope) :
    Runs returns scope reduced.1 scope ∧ Refers returns scope reduced.2 := by
  cases m with
  | countNodes =>
    simp only [measured, Except.ok.injEq] at h
    subst h
    exact ⟨.nil, refers_apply _ (.distinct (.var hnode))⟩
  | countEdges =>
    cases edge with
    | none => simp [measured] at h
    | some x =>
      simp only [measured, Except.ok.injEq] at h
      subst h
      exact ⟨.nil, refers_apply _ (.var (hedge x rfl))⟩
  | node a f =>
    simp only [measured, Except.ok.injEq] at h
    subst h
    exact runs_reduce f (refers_propertyOf _ hnode)
  | edge a f =>
    cases edge with
    | none => simp [measured] at h
    | some x =>
      simp only [measured, Except.ok.injEq] at h
      subst h
      exact runs_reduce f (refers_propertyOf _ (hedge x rfl))

theorem reduced_ne_star {m : Measure} {node : String} {edge : Option String} {reduced : Reduced}
    (h : measured m node edge = .ok reduced) : reduced.2 ≠ .star := by
  cases m with
  | countNodes =>
    simp only [measured, Except.ok.injEq] at h
    subst h
    simp
  | countEdges =>
    cases edge <;> simp only [measured, Except.ok.injEq, reduceCtorEq] at h
    subst h
    simp
  | node a f =>
    simp only [measured, Except.ok.injEq] at h
    subst h
    cases f <;> simp [reduce]
  | edge a f =>
    cases edge <;> simp only [measured, Except.ok.injEq, reduceCtorEq] at h
    subst h
    cases f <;> simp [reduce]

/-- A maker of calls that import needed names only and return one name. The names that it needs
are older than the count at which it may be used. -/
def Makes (returns : String → Names) (needs : Names) (n : Nat)
    (call : String → Build Clause) : Prop :=
  ∀ name s clause t, n ≤ s.next → call name s = .ok (clause, t) →
    s.next ≤ t.next ∧ ∃ imports body, clause = .call imports body ∧
      (∀ x ∈ imports, x ∈ needs) ∧ Gives returns imports body [name]

/-- A call is made under a name that is drawn for it. -/
theorem Makes.provides {needs : Names} {n : Nat} {call : String → Build Clause}
    (h : Makes returns needs n call) {hint : String} (hhint : hint ∈ hints) {s t : Supply}
    {clause : Clause} (hn : n ≤ s.next)
    (hcall : call (s.name hint) { s with next := s.next + 1 } = .ok (clause, t)) :
    Provides returns needs s.next t.next [clause] [s.name hint] := by
  obtain ⟨hle, imports, body, rfl, himports, hbody⟩ := h _ _ _ _ (by simp only; omega) hcall
  exact .call ((Within.single s hint hhint).mono (Nat.le_refl _) hle) himports hbody

theorem makes_computedCall (ctx : Context) (a : Attribute) (ha : Honest returns a) {n : Nat}
    (hold : Older n ctx.subject) : Makes returns [ctx.subject] n (computedCall ctx a) := by
  intro name s clause t hn h
  unfold computedCall at h
  cases hcomp : a.computation with
  | none => simp [hcomp, fail_ok] at h
  | some c =>
    obtain ⟨hreturns, hcolumn⟩ := ha c hcomp
    simp only [hcomp, bind_ok, fresh_ok, pure_ok] at h
    obtain ⟨column, u, ⟨rfl, rfl⟩, rfl, rfl⟩ := h
    refine ⟨Nat.le_succ _, _, _, rfl, fun x hx => hx, ?_⟩
    have hnew : Fresh [ctx.subject] [c.column] := by
      intro x hx hmem
      rw [List.mem_singleton] at hx hmem
      obtain ⟨i, _, hmint⟩ := hold
      exact hcolumn i (hx ▸ hmem ▸ hmint)
    have hinner : Gives returns [ctx.subject]
        [.carryOnly [Column.named (.var ctx.subject) "this"], .raw c.statement] [c.column] := by
      rw [← hreturns]
      refine .cons (step_carryOnly ?_ rfl) (gives_raw c.statement)
      intro col hcol
      rw [List.mem_singleton] at hcol
      subst hcol
      exact .var List.mem_cons_self
    have hcall : Step returns [ctx.subject] (.call [ctx.subject] _) ([ctx.subject] ++ [c.column]) :=
      .call (fun x hx => hx) hinner hnew
    refine .cons hcall (.cons (step_carryOnly ?_ rfl)
      (gives_give name (refers_collected a.isList (.var List.mem_cons_self)) ?_))
    · intro col hcol
      rw [List.mem_singleton] at hcol
      subst hcol
      exact .var (by simp)
    · unfold collected
      split <;> simp

theorem found_traversal (start edge node : String) (r : Relationship) (labels : List String) :
    found (traversal start r edge (NodePattern.named node labels)) = [edge, node] := rfl

theorem startedFrom_traversal (start edge node : String) (r : Relationship)
    (labels : List String) :
    startedFrom (traversal start r edge (NodePattern.named node labels)) = [start] := rfl

theorem makes_aggregationCall (ctx : Context) (a : Aggregation) {n : Nat}
    (hold : Older n ctx.subject) : Makes returns [ctx.subject] n (aggregationCall ctx a) := by
  intro name s clause t hn h
  simp only [aggregationCall, bind_ok, fresh_ok, lift_ok, pure_ok] at h
  obtain ⟨edge, _, ⟨hedge, rfl⟩, node, _, ⟨hnode, rfl⟩, reduced, _, ⟨hreduced, rfl⟩, right, u,
    hright, rfl, rfl⟩ := h
  obtain ⟨hnext, hclosed⟩ := closed_typedParam returns hright
  simp only at hnext hnode
  refine ⟨by omega, _, _, rfl, fun x hx => hx, ?_⟩
  have hnew : Fresh [ctx.subject] [edge, node] := by
    have hwithin : Within [edge, node] s.next (s.next + 2) := by
      subst hedge hnode
      exact (Within.single s "this" (by decide)).mono (Nat.le_refl _) (by omega) |>.append
        ((Within.single { s with next := s.next + 1 } "this" (by decide)).mono (by simp)
          (by simp))
    refine hwithin.fresh (Clear.of_older ?_ _)
    intro x hx
    rw [List.mem_singleton] at hx
    exact hx ▸ hold.mono hn
  have hmatch : Step returns [ctx.subject]
      (.find (traversal ctx.subject a.relationship edge
        (NodePattern.named node a.target.labels)) none) [ctx.subject, edge, node] :=
    step_find (fun x hx => hx) hnew
  have hreduces : Runs returns [ctx.subject, edge, node] reduced.1 [ctx.subject, edge, node] ∧
      Refers returns [ctx.subject, edge, node] reduced.2 :=
    runs_measured hreduced (by simp) (by simp)
  obtain ⟨hbefore, hrefers⟩ := hreduces
  have hleft : Refers returns [ctx.subject, edge, node]
      (if a.measure.comparesLength then .apply "size" [reduced.2] else reduced.2) := by
    split
    · exact refers_apply _ hrefers
    · exact hrefers
  refine .cons hmatch (.prepend hbefore
    (gives_give name (refers_comparison a.op hleft (hclosed _)) ?_))
  cases a.op <;> simp [comparison]

end

end GraphSelection.Scoping
