import GraphSelection.Proofs.Parts
import GraphSelection.Proofs.Partwise
import GraphSelection.Proofs.Scoped.Calls

/-!
Predicates. A predicate is read where its own calls have been made: it may refer to the node it is
about, to the edge that led there, and to the names of the calls. A block inside it brings in names
of its own, which none of the calls has taken.
-/
namespace GraphSelection.Scoping

open Cypher Plan Program Minting

section

variable {returns : String → Names}

theorem refers_partwise {scope : Names} : Partwise (Refers returns scope) where
  all _ := ⟨fun | .all h => h, .all⟩
  any _ := ⟨fun | .any h => h, .any⟩
  bool _ := .literal _

/-- What building a predicate has done: calls were added under new names, and the expressions refer
to the node, to the edge where there is one, and to the names of all calls so far. -/
structure Predicted (returns : String → Names) (ctx : Context) (edges : Bool) (n m : Nat)
    (q r : Subqueries) (es : List Expr) (names : Names) : Prop where
  known : r.known.values = q.known.values ++ names
  calls : ∃ added, r.calls = q.calls ++ added ∧
    Provides returns [ctx.subject] n m added names
  refers : ∀ scope, ctx.subject ∈ scope → (edges = true → ∀ x ∈ ctx.relationship, x ∈ scope) →
    (∀ x ∈ r.known.values, x ∈ scope) → Only scope names n m →
    ∀ e ∈ es, Refers returns scope e

namespace Predicted

variable {ctx : Context} {edges : Bool} {n m k : Nat} {q r t : Subqueries} {es es' : List Expr}
  {names more : Names}

theorem append (h : Predicted returns ctx edges n m q r es names)
    (h' : Predicted returns ctx edges m k r t es' more) :
    Predicted returns ctx edges n k q t (es ++ es') (names ++ more) := by
  obtain ⟨added, hadded, hprovides⟩ := h.calls
  obtain ⟨added', hadded', hprovides'⟩ := h'.calls
  refine ⟨?_, ⟨added ++ added', ?_, hprovides.append hprovides'⟩, ?_⟩
  · rw [h'.known, h.known, List.append_assoc]
  · rw [hadded', hadded, List.append_assoc]
  · intro scope hsubject hedge hknown honly e he
    rcases List.mem_append.mp he with he | he
    · refine h.refers scope hsubject hedge ?_ (honly.left hprovides'.within hprovides'.le) e he
      intro x hx
      refine hknown x ?_
      rw [h'.known]
      exact List.mem_append_left more hx
    · exact h'.refers scope hsubject hedge hknown (honly.right hprovides.within hprovides.le) e he

/-- Expressions that depend on nothing that was added. -/
theorem inline (hle : n ≤ m)
    (h : ∀ scope, ctx.subject ∈ scope → (edges = true → ∀ x ∈ ctx.relationship, x ∈ scope) →
      Clear scope n m → ∀ e ∈ es, Refers returns scope e) :
    Predicted returns ctx edges n m q q es [] where
  known := by simp
  calls := ⟨[], by simp, .nil _ hle⟩
  refers scope hsubject hedge _ honly := h scope hsubject hedge honly.clear

/-- Other expressions over the same names. -/
theorem rewrap (h : Predicted returns ctx edges n m q r es names)
    (hes : ∀ scope, ctx.subject ∈ scope → (∀ e ∈ es, Refers returns scope e) →
      ∀ e ∈ es', Refers returns scope e) :
    Predicted returns ctx edges n m q r es' names where
  known := h.known
  calls := h.calls
  refers scope hsubject hedge hknown honly :=
    hes scope hsubject (h.refers scope hsubject hedge hknown honly)

end Predicted

/-- A condition whose predicate refers to what is known where it is read. -/
def Predicts (returns : String → Names) (edges : Bool) (c : Condition) : Prop :=
  ∀ ctx q r s t e, Older s.next ctx.subject → Condition.predicate ctx c q s = .ok ((e, r), t) →
    ∃ names, Predicted returns ctx edges s.next t.next q r [e] names

theorem predicted_shared {ctx : Context} (edges : Bool) {key name : String}
    {call : String → Build Clause} {q r : Subqueries} {s t : Supply}
    (hmakes : Makes returns [ctx.subject] s.next call)
    (h : shared key call q s = .ok ((name, r), t)) :
    ∃ names, Predicted returns ctx edges s.next t.next q r [.var name] names := by
  rcases shared_ok key call name q r s t h with ⟨hknown, rfl, rfl⟩ | ⟨clause, rfl, hcall, rfl⟩
  · refine ⟨[], by simp, ⟨[], by simp, .nil _ (Nat.le_refl _)⟩, ?_⟩
    intro scope _ _ hscope _ e he
    rw [List.mem_singleton] at he
    subst he
    exact .var (hscope name (Entries.mem_values_of_get? hknown))
  · have hprovides : Provides returns [ctx.subject] s.next t.next [clause] [s.name "var"] :=
      hmakes.provides (by decide) (Nat.le_refl _) hcall
    refine ⟨[s.name "var"], by simp [Entries.values], ⟨[clause], rfl, hprovides⟩, ?_⟩
    intro scope _ _ hscope _ e he
    rw [List.mem_singleton] at he
    subst he
    exact .var (hscope _ (by simp [Entries.values]))

theorem closed_claimParam (returns : String → Names) {value : Option Doc} {guards : List Expr}
    {e : Expr} {s t : Supply} (h : claimParam value s = .ok ((guards, e), t)) :
    s.next + 1 = t.next ∧ ∀ e' ∈ guards ++ [e], Closed returns e' := by
  simp only [claimParam, bind_ok, pure_ok, Prod.mk.injEq] at h
  obtain ⟨p, u, hp, ⟨rfl, rfl⟩, rfl⟩ := h
  obtain ⟨hnext, hclosed⟩ := closed_param returns hp
  refine ⟨hnext, ?_⟩
  intro e' he'
  simp only [List.cons_append, List.nil_append, List.mem_cons, List.not_mem_nil, or_false] at he'
  rcases he' with rfl | rfl
  · exact fun scope => .isNotNull (hclosed scope)
  · exact hclosed

theorem predicted_subject {ctx : Context} {edges : Bool} {subject : Subject}
    {guards : List Expr} {e : Expr} {q r : Subqueries} {s t : Supply}
    (hfits : subject.Fits (Honest returns) edges) (hold : Older s.next ctx.subject)
    (h : subjectExpr ctx subject q s = .ok (((guards, e), r), t)) :
    ∃ names, Predicted returns ctx edges s.next t.next q r (guards ++ [e]) names := by
  cases subject with
  | node a =>
    simp only [subjectExpr, predicate_pure_ok, Prod.mk.injEq] at h
    obtain ⟨⟨rfl, rfl⟩, rfl, rfl⟩ := h
    refine ⟨[], .inline (Nat.le_refl _) ?_⟩
    intro scope hsubject _ _ e' he'
    simp only [List.nil_append, List.mem_singleton] at he'
    exact he' ▸ refers_propertyOf _ hsubject
  | edge a =>
    simp only [subjectExpr, predicate_bind_ok, predicate_fault_ok, predicate_pure_ok,
      Prod.mk.injEq] at h
    obtain ⟨edge, _, _, ⟨hedge, rfl, rfl⟩, ⟨rfl, rfl⟩, rfl, rfl⟩ := h
    refine ⟨[], .inline (Nat.le_refl _) ?_⟩
    intro scope _ hscope _ e' he'
    simp only [List.nil_append, List.mem_singleton] at he'
    subst he'
    refine refers_propertyOf _ (hscope hfits edge ?_)
    unfold Context.edge at hedge
    split at hedge
    · simp at hedge
    · rename_i name hname
      cases hedge
      exact hname
  | computed a =>
    simp only [subjectExpr, predicate_bind_ok, predicate_pure_ok, Prod.mk.injEq] at h
    obtain ⟨name, _, _, hshared, ⟨rfl, rfl⟩, rfl, rfl⟩ := h
    exact predicted_shared edges (makes_computedCall ctx a hfits hold) hshared
  | claim path value =>
    simp only [subjectExpr, predicate_lift_ok] at h
    obtain ⟨h, rfl⟩ := h
    obtain ⟨hnext, hclosed⟩ := closed_claimParam returns h
    exact ⟨[], .inline (by omega) fun scope _ _ _ e' he' => hclosed e' he' scope⟩

theorem closed_operand (returns : String → Names) {kind : Option ScalarKind} {op : Comparison}
    {operand : Operand} {guards : List Expr} {e : Expr} {s t : Supply}
    (h : operandExpr kind op operand s = .ok ((guards, e), t)) :
    s.next + 1 = t.next ∧ ∀ e' ∈ guards ++ [e], Closed returns e' := by
  cases operand with
  | claim path value => exact closed_claimParam returns h
  | literal value =>
    have hparam : guards = [] ∧ s.next + 1 = t.next ∧ Closed returns e := by
      by_cases hop : op = .isIn
      · simp only [operandExpr, hop, ↓reduceIte, bind_ok, pure_ok, Prod.mk.injEq] at h
        obtain ⟨p, u, hp, ⟨rfl, rfl⟩, rfl⟩ := h
        exact ⟨rfl, closed_typedListParam returns hp⟩
      · simp only [operandExpr, hop, ↓reduceIte, bind_ok, pure_ok, Prod.mk.injEq] at h
        obtain ⟨p, u, hp, ⟨rfl, rfl⟩, rfl⟩ := h
        exact ⟨rfl, closed_typedParam returns hp⟩
    obtain ⟨rfl, hnext, hclosed⟩ := hparam
    refine ⟨hnext, ?_⟩
    intro e' he'
    simp only [List.nil_append, List.mem_singleton] at he'
    exact he' ▸ hclosed

theorem refers_lowered {scope : Names} {e : Expr} (caseInsensitive : Bool)
    (h : Refers returns scope e) : Refers returns scope (lowered caseInsensitive e) := by
  unfold lowered
  split
  · exact refers_apply _ h
  · exact h

theorem predicted_compare {ctx : Context} {edges : Bool} {subject : Subject} {op : Comparison}
    {operand : Operand} {caseInsensitive : Bool} {e : Expr} {q r : Subqueries} {s t : Supply}
    (hfits : subject.Fits (Honest returns) edges) (hold : Older s.next ctx.subject)
    (h : comparePredicate ctx subject op operand caseInsensitive q s = .ok ((e, r), t)) :
    ∃ names, Predicted returns ctx edges s.next t.next q r [e] names := by
  simp only [comparePredicate, predicate_bind_ok, predicate_lift_ok, predicate_pure_ok] at h
  obtain ⟨⟨guards, left⟩, q', u, hleft, ⟨guards', right⟩, _, u', ⟨hright, rfl⟩, rfl, rfl, rfl⟩ := h
  obtain ⟨names, hpredicted⟩ := predicted_subject hfits hold hleft
  obtain ⟨hnext, hclosed⟩ := closed_operand returns hright
  have hoperand : Predicted returns ctx edges u.next u'.next q' q' (guards' ++ [right]) [] :=
    .inline (by omega) fun scope _ _ _ e' he' => hclosed e' he' scope
  have hboth := hpredicted.append hoperand
  rw [List.append_nil] at hboth
  refine ⟨names, hboth.rewrap ?_⟩
  intro scope _ hrefers e' he'
  rw [List.mem_singleton] at he'
  subst he'
  refine refers_partwise.getD (refers_partwise.allOf ?_) true
  intro e' he'
  simp only [List.mem_append, List.mem_singleton] at he' hrefers
  rcases he' with (he' | he') | rfl
  · exact hrefers e' (.inl (.inl he'))
  · exact hrefers e' (.inr (.inl he'))
  · exact refers_comparison op (refers_lowered _ (hrefers left (.inl (.inr rfl))))
      (refers_lowered _ (hrefers right (.inr (.inr rfl))))

/-- A match, the calls of its predicate and the predicate. -/
theorem runs_narrowed {scope needs names : Names} {p : Pattern} {n m : Nat}
    {calls : List Clause} {predicate : Option Expr} (hstart : ∀ x ∈ startedFrom p, x ∈ scope)
    (hnew : Fresh scope (found p)) (hneeds : ∀ x ∈ needs, x ∈ scope ++ found p)
    (hclear : Clear (scope ++ found p) n m) (hcalls : Provides returns needs n m calls names)
    (hpred : ∀ e ∈ predicate, Refers returns (scope ++ found p ++ names) e) :
    Runs returns scope (narrowed p calls predicate) (scope ++ found p ++ names) := by
  unfold narrowed
  split
  · rename_i hempty
    rw [List.isEmpty_iff] at hempty
    subst hempty
    have hnames := hcalls.names_nil hneeds hclear
    subst hnames
    rw [List.append_nil] at hpred ⊢
    exact .single (.matching false hstart hnew hpred)
  · refine .cons (step_find hstart hnew) ((hcalls.runs _ hneeds hclear).append ?_)
    cases predicate with
    | none => exact .nil
    | some e => exact .single (step_keep (hpred e rfl))

/-- A quantified block, when its body is in order under every predicate over the inner scope. -/
theorem refers_quantified {scope : Names} (inner : Names) {p : Pattern} {calls : List Clause}
    {predicate : Option Expr} (quantifier : Quantifier)
    (hbody : ∀ predicate' : Option Expr, (∀ e ∈ predicate', Refers returns inner e) →
      Runs returns scope (narrowed p calls predicate') inner)
    (hpred : ∀ e ∈ predicate, Refers returns inner e) :
    Refers returns scope (quantified quantifier p calls predicate) := by
  have hexists := hbody predicate hpred
  cases quantifier with
  | atLeastOne => exact .existsIn hexists
  | noneAtAll => exact .not (.existsIn hexists)
  | exactlyOne => exact .binary _ (.countIn hexists) (.literal _)
  | every =>
    cases predicate with
    | none => exact .existsIn hexists
    | some e =>
      have hfails : ∀ e' ∈ some (Expr.not e), Refers returns inner e' := by
        intro e' he'
        rw [Option.mem_some_iff] at he'
        exact he' ▸ .not (hpred e rfl)
      refine .all ?_
      intro e' he'
      simp only [List.mem_cons, List.not_mem_nil, or_false] at he'
      rcases he' with rfl | rfl
      · exact .existsIn hexists
      · exact .not (.existsIn (hbody _ hfails))

section Lists

variable {ctx : Context} {edges : Bool} {es : List Expr} {q r : Subqueries} {s t : Supply}

theorem predicted_conditions {items : List Condition}
    (hitems : ∀ c ∈ items, Predicts returns edges c) (hold : Older s.next ctx.subject)
    (h : Condition.predicates ctx items q s = .ok ((es, r), t)) :
    ∃ names, Predicted returns ctx edges s.next t.next q r es names := by
  induction items generalizing q s es with
  | nil =>
    simp only [Condition.predicates, predicate_pure_ok] at h
    obtain ⟨rfl, rfl, rfl⟩ := h
    exact ⟨[], .inline (Nat.le_refl _) (by simp)⟩
  | cons c rest ih =>
    simp only [Condition.predicates, predicate_bind_ok, predicate_pure_ok] at h
    obtain ⟨e, q', u, hc, es', r', t', hrest, rfl, rfl, rfl⟩ := h
    obtain ⟨names, hfirst⟩ := hitems c List.mem_cons_self ctx q q' s u e hold hc
    obtain ⟨_, _, hprovides⟩ := hfirst.calls
    obtain ⟨more, hmore⟩ := ih (fun c' hc' => hitems c' (List.mem_cons_of_mem c hc'))
      (hold.mono hprovides.le) hrest
    exact ⟨names ++ more, hfirst.append hmore⟩

theorem predicted_option {filter : Option Condition}
    (hfilter : ∀ c ∈ filter, Predicts returns edges c) (hold : Older s.next ctx.subject)
    (h : Condition.optionPredicate ctx filter q s = .ok ((es, r), t)) :
    ∃ names, Predicted returns ctx edges s.next t.next q r es names := by
  cases filter with
  | none =>
    simp only [Condition.optionPredicate, predicate_pure_ok] at h
    obtain ⟨rfl, rfl, rfl⟩ := h
    exact ⟨[], .inline (Nat.le_refl _) (by simp)⟩
  | some c =>
    simp only [Condition.optionPredicate, predicate_bind_ok, predicate_pure_ok] at h
    obtain ⟨e, q', u, hc, rfl, rfl, rfl⟩ := h
    exact hfilter c rfl ctx q q' s u e hold hc

theorem predicted_alternatives {targets : List (Entity × Option Condition)}
    (htargets : ∀ p ∈ targets, ∀ c ∈ p.2, Predicts returns edges c)
    (hold : Older s.next ctx.subject)
    (h : Condition.alternatives ctx targets q s = .ok ((es, r), t)) :
    ∃ names, Predicted returns ctx edges s.next t.next q r es names := by
  induction targets generalizing q s es with
  | nil =>
    simp only [Condition.alternatives, predicate_pure_ok] at h
    obtain ⟨rfl, rfl, rfl⟩ := h
    exact ⟨[], .inline (Nat.le_refl _) (by simp)⟩
  | cons target rest ih =>
    obtain ⟨e, filter⟩ := target
    simp only [Condition.alternatives, predicate_bind_ok, predicate_pure_ok] at h
    obtain ⟨own, q', u, hown, es', r', t', hrest, rfl, rfl, rfl⟩ := h
    obtain ⟨names, hfirst⟩ := predicted_option (htargets _ List.mem_cons_self) hold hown
    obtain ⟨_, _, hprovides⟩ := hfirst.calls
    obtain ⟨more, hmore⟩ := ih (fun p hp => htargets p (List.mem_cons_of_mem _ hp))
      (hold.mono hprovides.le) hrest
    refine ⟨names ++ more, (hfirst.append hmore).rewrap ?_⟩
    intro scope hsubject hrefers e' he'
    rcases List.mem_append.mp he' with he' | he'
    · refine refers_partwise.allOf ?_ e' (Option.mem_toList.mp he')
      intro part hpart
      rcases List.mem_cons.mp hpart with rfl | hpart
      · exact .hasLabels _ hsubject
      · exact hrefers part (List.mem_append_left _ hpart)
    · exact hrefers e' (List.mem_append_right _ he')

theorem predicted_firstTarget {targets : List (Entity × Option Condition)}
    (htargets : ∀ p ∈ targets, ∀ c ∈ p.2, Predicts returns edges c)
    (hold : Older s.next ctx.subject)
    (h : Condition.firstTarget ctx targets q s = .ok ((es, r), t)) :
    ∃ names, Predicted returns ctx edges s.next t.next q r es names := by
  cases targets with
  | nil =>
    simp only [Condition.firstTarget, predicate_pure_ok] at h
    obtain ⟨rfl, rfl, rfl⟩ := h
    exact ⟨[], .inline (Nat.le_refl _) (by simp)⟩
  | cons target rest =>
    simp only [Condition.firstTarget] at h
    exact predicted_option (htargets _ List.mem_cons_self) hold h

end Lists

/-- The conditions on the nodes of a block and on its edge, read inside it. -/
theorem predicted_block {ctx : Context} {edges : Bool} {targets : List (Entity × Option Condition)}
    {isComposite : Bool} {edge : Option Condition} {es : List Expr} {q r : Subqueries}
    {s t : Supply} (htargets : ∀ p ∈ targets, ∀ c ∈ p.2, Predicts returns edges c)
    (hedge : ∀ c ∈ edge, Predicts returns edges c) (hold : Older s.next ctx.subject)
    (h : (do
      let targetParts ←
        if isComposite then do
          let alternatives ← Condition.alternatives ctx targets
          pure [(Expr.anyOf alternatives).getD (.bool false)]
        else Condition.firstTarget ctx targets
      let edgeParts ← Condition.optionPredicate ctx edge
      pure (targetParts ++ edgeParts) : Predicate (List Expr)) q s = .ok ((es, r), t)) :
    ∃ names, Predicted returns ctx edges s.next t.next q r es names := by
  have hparts : ∃ es₁ es₂ q' u names, Predicted returns ctx edges s.next u.next q q' es₁ names ∧
      Condition.optionPredicate ctx edge q' u = .ok ((es₂, r), t) ∧ es₁ ++ es₂ = es := by
    cases isComposite with
    | false =>
      simp only [Bool.false_eq_true, ↓reduceIte, predicate_bind_ok, predicate_pure_ok] at h
      obtain ⟨es₁, q', u, hfirst, es₂, _, _, hedges, rfl, rfl, rfl⟩ := h
      obtain ⟨names, hpredicted⟩ := predicted_firstTarget htargets hold hfirst
      exact ⟨es₁, es₂, q', u, names, hpredicted, hedges, rfl⟩
    | true =>
      simp only [↓reduceIte, predicate_bind_ok, predicate_pure_ok] at h
      obtain ⟨alternatives, q', u, halternatives, _, _, _, ⟨rfl, rfl, rfl⟩, es₂, _, _, hedges, rfl,
        rfl, rfl⟩ := h
      obtain ⟨names, hpredicted⟩ := predicted_alternatives htargets hold halternatives
      refine ⟨_, es₂, _, _, names, hpredicted.rewrap ?_, hedges, rfl⟩
      intro scope _ hrefers e he
      rw [List.mem_singleton] at he
      exact he ▸ refers_partwise.getD (refers_partwise.anyOf hrefers) false
  obtain ⟨es₁, es₂, q', u, names, hfirst, hsecond, rfl⟩ := hparts
  obtain ⟨_, _, hprovides⟩ := hfirst.calls
  obtain ⟨more, hmore⟩ := predicted_option hedge (hold.mono hprovides.le) hsecond
  exact ⟨names ++ more, hfirst.append hmore⟩

/-- The block of a condition on related nodes sees the edge and the node that it matches, and what
is around it; nothing of it is known outside. -/
theorem predicts_related {edges : Bool} (relationship : Relationship) (quantifier : Quantifier)
    (isComposite : Bool) {targets : List (Entity × Option Condition)} {edge : Option Condition}
    (htargets : ∀ p ∈ targets, ∀ c ∈ p.2, Predicts returns true c)
    (hcondition : ∀ c ∈ edge, Predicts returns true c) :
    Predicts returns edges (.related relationship quantifier targets isComposite edge) := by
  intro ctx q r s t e hold hrun
  simp only [Condition.predicate, predicate_bind_ok, predicate_lift_ok, fresh_ok,
    predicate_pure_ok] at hrun
  obtain ⟨edge, _, _, ⟨⟨hedge, rfl⟩, rfl⟩, node, _, _, ⟨⟨hnode, rfl⟩, rfl⟩, ⟨parts, calls⟩, _, u,
    ⟨hgathered, rfl⟩, rfl, rfl, rfl⟩ := hrun
  rw [gathered_ok] at hgathered
  obtain ⟨q', hblock, rfl⟩ := hgathered
  have hwithin : Within [edge, node] s.next (s.next + 2) := by
    subst hedge hnode
    exact Within.pair s (by decide) (by decide)
  have hnodeOlder : Older (s.next + 2) node := hwithin.older node (by simp)
  obtain ⟨names, hpredicted⟩ := predicted_block htargets hcondition hnodeOlder hblock
  obtain ⟨added, hadded, hprovides⟩ := hpredicted.calls
  rw [List.nil_append] at hadded
  have hle : s.next + 2 ≤ u.next := hprovides.le
  refine ⟨[], .inline (by omega) ?_⟩
  intro scope hsubject _ hclear e he
  rw [List.mem_singleton] at he
  subst he
  have hinner : Clear (scope ++ [edge, node]) (s.next + 2) u.next :=
    (hclear.sub (by omega) (Nat.le_refl _)).append (hwithin.clear _)
  have hnode : node ∈ scope ++ [edge, node] := by simp
  refine refers_quantified (scope ++ [edge, node] ++ names) quantifier ?_ ?_
  · intro predicate hpred
    refine runs_narrowed ?_ ?_ ?_ hinner (hadded ▸ hprovides) hpred
    · intro x hx
      rw [startedFrom_traversal, List.mem_singleton] at hx
      exact hx ▸ hsubject
    · exact (hwithin.mono (Nat.le_refl _) hle).fresh hclear
    · intro x hx
      rw [List.mem_singleton] at hx
      exact hx ▸ hnode
  · refine refers_partwise.allOf (hpredicted.refers _ (List.mem_append_left names hnode) ?_ ?_
      (hinner.only names))
    · intro _ x hx
      cases hx
      simp
    · intro x hx
      rw [hpredicted.known] at hx
      exact List.mem_append_right _ hx

/-- The predicate of a condition that fits into its place refers to what is known there. -/
theorem predicts_of_fits {edges : Bool} {c : Condition} (h : c.Fits (Honest returns) edges) :
    Predicts returns edges c := by
  induction h with
  | all _ ih =>
    intro ctx q r s t e hold hrun
    simp only [Condition.predicate, predicate_bind_ok, predicate_pure_ok] at hrun
    obtain ⟨es, _, _, hitems, rfl, rfl, rfl⟩ := hrun
    obtain ⟨names, hpredicted⟩ := predicted_conditions ih hold hitems
    refine ⟨names, hpredicted.rewrap ?_⟩
    intro scope _ hrefers e he
    rw [List.mem_singleton] at he
    exact he ▸ refers_partwise.getD (refers_partwise.allOf hrefers) true
  | any _ ih =>
    intro ctx q r s t e hold hrun
    simp only [Condition.predicate, predicate_bind_ok, predicate_pure_ok] at hrun
    obtain ⟨es, _, _, hitems, rfl, rfl, rfl⟩ := hrun
    obtain ⟨names, hpredicted⟩ := predicted_conditions ih hold hitems
    refine ⟨names, hpredicted.rewrap ?_⟩
    intro scope _ hrefers e he
    rw [List.mem_singleton] at he
    exact he ▸ refers_partwise.getD (refers_partwise.anyOf hrefers) false
  | not _ ih =>
    intro ctx q r s t e hold hrun
    simp only [Condition.predicate, predicate_bind_ok, predicate_pure_ok] at hrun
    obtain ⟨inner, q', u, hinner, rfl, rfl, rfl⟩ := hrun
    obtain ⟨names, hpredicted⟩ := ih ctx q q' s u inner hold hinner
    refine ⟨names, hpredicted.rewrap ?_⟩
    intro scope _ hrefers e he
    rw [List.mem_singleton] at he
    exact he ▸ .not (hrefers inner List.mem_cons_self)
  | compare op operand caseInsensitive hfits =>
    intro ctx q r s t e hold hrun
    simp only [Condition.predicate] at hrun
    exact predicted_compare hfits hold hrun
  | nullness isNull hfits =>
    intro ctx q r s t e hold hrun
    simp only [Condition.predicate, predicate_bind_ok, predicate_pure_ok] at hrun
    obtain ⟨⟨guards, inner⟩, q', u, hinner, rfl, rfl, rfl⟩ := hrun
    obtain ⟨names, hpredicted⟩ := predicted_subject hfits hold hinner
    refine ⟨names, hpredicted.rewrap ?_⟩
    intro scope _ hrefers e he
    rw [List.mem_singleton] at he
    subst he
    have hinner := hrefers inner (List.mem_append_right guards List.mem_cons_self)
    split
    · exact .isNull hinner
    · exact .isNotNull hinner
  | labels names =>
    intro ctx q r s t e _ hrun
    simp only [Condition.predicate, predicate_pure_ok] at hrun
    obtain ⟨rfl, rfl, rfl⟩ := hrun
    refine ⟨[], .inline (Nat.le_refl _) ?_⟩
    intro scope hsubject _ _ e he
    rw [List.mem_singleton] at he
    exact he ▸ .hasLabels _ hsubject
  | aggregation a =>
    intro ctx q r s t e hold hrun
    simp only [Condition.predicate, predicate_bind_ok, predicate_pure_ok] at hrun
    obtain ⟨name, q', u, hshared, rfl, rfl, rfl⟩ := hrun
    obtain ⟨names, hpredicted⟩ :=
      predicted_shared _ (makes_aggregationCall ctx a hold) hshared
    refine ⟨names, hpredicted.rewrap ?_⟩
    intro scope _ hrefers e he
    rw [List.mem_singleton] at he
    exact he ▸ .binary _ (hrefers _ List.mem_cons_self) (.literal _)
  | authenticated =>
    intro ctx q r s t e _ hrun
    simp only [Condition.predicate, predicate_bind_ok, predicate_lift_ok, predicate_pure_ok] at hrun
    obtain ⟨p, q', u, ⟨hparam, rfl⟩, rfl, rfl, rfl⟩ := hrun
    obtain ⟨hnext, hclosed⟩ := closed_param returns hparam
    refine ⟨[], .inline (by omega) ?_⟩
    intro scope _ _ _ e he
    rw [List.mem_singleton] at he
    exact he ▸ .binary _ (hclosed scope) (.literal _)
  | related relationship quantifier isComposite _ _ ihtargets ihedge =>
    exact predicts_related relationship quantifier isComposite ihtargets ihedge

/-- A filtered match adds what its pattern finds and the names of the calls of its filter. -/
theorem runs_filteredMatch {ctx : Context} {edges : Bool} {pattern : Pattern}
    {filter : Option Condition} {clauses : List Clause} {s t : Supply}
    (hfits : ∀ c ∈ filter, c.Fits (Honest returns) edges) (hold : Older s.next ctx.subject)
    (h : filteredMatch pattern filter ctx s = .ok (clauses, t)) :
    s.next ≤ t.next ∧ ∃ names, Within names s.next t.next ∧ ∀ scope,
      (∀ x ∈ startedFrom pattern, x ∈ scope) → Fresh scope (found pattern) →
      ctx.subject ∈ scope ++ found pattern →
      (edges = true → ∀ x ∈ ctx.relationship, x ∈ scope ++ found pattern) →
      Clear (scope ++ found pattern) s.next t.next →
      Runs returns scope clauses (scope ++ found pattern ++ names) := by
  simp only [filteredMatch, bind_ok, pure_ok] at h
  obtain ⟨⟨parts, calls⟩, u, hgathered, rfl, rfl⟩ := h
  rw [gathered_ok] at hgathered
  obtain ⟨q, hparts, rfl⟩ := hgathered
  obtain ⟨names, hpredicted⟩ :=
    predicted_option (fun c hc => predicts_of_fits (hfits c hc)) hold hparts
  obtain ⟨added, hadded, hprovides⟩ := hpredicted.calls
  rw [List.nil_append] at hadded
  refine ⟨hprovides.le, names, hprovides.within, ?_⟩
  intro scope hstart hnew hsubject hedge hclear
  refine runs_narrowed hstart hnew ?_ hclear (hadded ▸ hprovides) ?_
  · intro x hx
    rw [List.mem_singleton] at hx
    exact hx ▸ hsubject
  · intro e he
    refine hpredicted.refers _ (List.mem_append_left names hsubject) ?_ ?_ (hclear.only names) e
      (List.mem_of_mem_head? he)
    · intro hedges x hx
      exact List.mem_append_left names (hedge hedges x hx)
    · intro x hx
      rw [hpredicted.known] at hx
      exact List.mem_append_right _ hx

/-- Each validation is read where the calls of all of them have been made. -/
theorem provides_validationParts {ctx : Context} {validations : List Condition}
    {calls : List Clause} {es : List Expr} {s t : Supply}
    (hfits : FitsAll (Honest returns) validations) (hold : Older s.next ctx.subject)
    (h : validationParts ctx validations s = .ok ((calls, es), t)) :
    ∃ names, Provides returns [ctx.subject] s.next t.next calls names ∧
      ∀ scope, ctx.subject ∈ scope → (∀ x ∈ names, x ∈ scope) → Only scope names s.next t.next →
        ∀ e ∈ es, Refers returns scope e := by
  induction validations generalizing s calls es with
  | nil =>
    simp only [validationParts, pure_ok, Prod.mk.injEq] at h
    obtain ⟨⟨rfl, rfl⟩, rfl⟩ := h
    exact ⟨[], .nil _ (Nat.le_refl _), by simp⟩
  | cons c rest ih =>
    simp only [validationParts, bind_ok, pure_ok, Prod.mk.injEq] at h
    obtain ⟨⟨e, own⟩, u, hgathered, ⟨more, es'⟩, _, hrest, ⟨rfl, rfl⟩, rfl⟩ := h
    rw [gathered_ok] at hgathered
    obtain ⟨q, hc, rfl⟩ := hgathered
    obtain ⟨names, hpredicted⟩ :=
      predicts_of_fits (hfits c List.mem_cons_self) ctx _ _ _ _ _ hold hc
    obtain ⟨added, hadded, hprovides⟩ := hpredicted.calls
    rw [List.nil_append] at hadded
    obtain ⟨names', hprovides', hrefers⟩ :=
      ih (fun c' hc' => hfits c' (List.mem_cons_of_mem c hc')) (hold.mono hprovides.le) hrest
    refine ⟨names ++ names', hadded ▸ hprovides.append hprovides', ?_⟩
    intro scope hsubject hnames honly e' he'
    rcases List.mem_cons.mp he' with rfl | he'
    · refine hpredicted.refers scope hsubject (by simp) ?_
        (honly.left hprovides'.within hprovides'.le) _ List.mem_cons_self
      intro x hx
      rw [hpredicted.known] at hx
      exact hnames x (List.mem_append_left names' hx)
    · exact hrefers scope hsubject (fun x hx => hnames x (List.mem_append_right names hx))
        (honly.right hprovides.within hprovides.le) e' he'

theorem step_assertion {scope : Names} {e : Expr} (terms : Terms)
    (h : Refers returns scope e) : Step returns scope (assertion terms e) scope := by
  refine step_keep (.apply _ ?_)
  intro e' he'
  simp only [List.mem_cons, List.not_mem_nil, or_false] at he'
  rcases he' with rfl | rfl | rfl
  · exact .not h
  · exact .literal _
  · refine .list ?_
    intro e' he'
    rw [List.mem_singleton] at he'
    exact he' ▸ .literal _

theorem provides_validated {ctx : Context} {validations : List Condition} {clauses : List Clause}
    {s t : Supply} (hfits : FitsAll (Honest returns) validations)
    (hold : Older s.next ctx.subject) (h : validated ctx validations s = .ok (clauses, t)) :
    ∃ names, Provides returns [ctx.subject] s.next t.next clauses names := by
  simp only [validated, bind_ok, pure_ok] at h
  obtain ⟨⟨calls, es⟩, u, hparts, rfl, rfl⟩ := h
  obtain ⟨names, hprovides, hrefers⟩ := provides_validationParts hfits hold hparts
  refine ⟨names, hprovides.le, hprovides.within, ?_⟩
  intro scope hneeds hclear
  have hsubject : ctx.subject ∈ scope := hneeds _ List.mem_cons_self
  refine (hprovides.runs scope hneeds hclear).append ?_
  cases hall : Expr.allOf es with
  | none => exact .nil
  | some e =>
    refine .single (step_assertion _ (refers_partwise.allOf ?_ e hall))
    exact hrefers _ (List.mem_append_left names hsubject)
      (fun x hx => List.mem_append_right scope hx) (hclear.only names)

end

end GraphSelection.Scoping
