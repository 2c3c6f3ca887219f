import GraphSelection.Cypher.Basic

/-!
Properties of expressions that go by parts: a conjunction or a disjunction has such a property
exactly if its members have it, and a truth value has it. However expressions are put together by
`AND` and `OR`, with conjunctions and disjunctions among them taken apart, the whole has the
property if they have it.
-/
namespace GraphSelection.Cypher

structure Partwise (P : Expr → Prop) : Prop where
  all : ∀ items, P (.all items) ↔ ∀ e ∈ items, P e
  any : ∀ items, P (.any items) ↔ ∀ e ∈ items, P e
  bool : ∀ b, P (.bool b)

namespace Partwise

variable {P : Expr → Prop} {e : Expr} {es : List Expr}

theorem conjuncts (h : Partwise P) (he : P e) : ∀ e' ∈ e.conjuncts, P e' := by
  unfold Expr.conjuncts
  split
  · exact (h.all _).mp he
  · exact List.forall_mem_singleton.mpr he

theorem disjuncts (h : Partwise P) (he : P e) : ∀ e' ∈ e.disjuncts, P e' := by
  unfold Expr.disjuncts
  split
  · exact (h.any _).mp he
  · exact List.forall_mem_singleton.mpr he

theorem allOf (h : Partwise P) (hes : ∀ e ∈ es, P e) : ∀ e ∈ Expr.allOf es, P e := by
  have hflat : ∀ e ∈ es.flatMap Expr.conjuncts, P e :=
    List.forall_mem_flatMap.mpr fun e he => h.conjuncts (hes e he)
  intro e he
  unfold Expr.allOf at he
  split at he
  next => cases he
  next hsingle =>
    cases he
    exact hflat _ (hsingle ▸ List.mem_cons_self)
  next =>
    cases he
    exact (h.all _).mpr hflat

theorem anyOf (h : Partwise P) (hes : ∀ e ∈ es, P e) : ∀ e ∈ Expr.anyOf es, P e := by
  have hflat : ∀ e ∈ es.flatMap Expr.disjuncts, P e :=
    List.forall_mem_flatMap.mpr fun e he => h.disjuncts (hes e he)
  intro e he
  unfold Expr.anyOf at he
  split at he
  next => cases he
  next hsingle =>
    cases he
    exact hflat _ (hsingle ▸ List.mem_cons_self)
  next =>
    cases he
    exact (h.any _).mpr hflat

/-- A truth value stands for a conjunction or a disjunction of nothing. -/
theorem getD (h : Partwise P) {found : Option Expr} (hfound : ∀ e ∈ found, P e) (b : Bool) :
    P (found.getD (.bool b)) := by
  cases found with
  | none => exact h.bool b
  | some e => exact hfound e rfl

end Partwise

end GraphSelection.Cypher
