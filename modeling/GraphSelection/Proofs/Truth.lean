import GraphSelection.Proofs.Parts
import GraphSelection.Proofs.Runs

/-!
Predicates in three-valued logic. A row gives a truth to everything that is no connective; the
truth of the rest follows. The predicate of a filter is true of a row exactly when the predicates
of all that the filter demands are, each as it is compiled in the same run.
-/
namespace GraphSelection.Cypher

/-- A comparison with nothing is neither true nor false. -/
inductive Truth where
  | yes
  | no
  | unknown
  deriving DecidableEq, Repr

namespace Truth

def and : Truth → Truth → Truth
  | .no, _ => .no
  | .yes, b => b
  | .unknown, .no => .no
  | .unknown, _ => .unknown

def or : Truth → Truth → Truth
  | .yes, _ => .yes
  | .no, b => b
  | .unknown, .yes => .yes
  | .unknown, _ => .unknown

def not : Truth → Truth
  | .yes => .no
  | .no => .yes
  | .unknown => .unknown

theorem and_yes (a b : Truth) : a.and b = .yes ↔ a = .yes ∧ b = .yes := by
  cases a <;> cases b <;> decide

end Truth

mutual
/-- The truth of an expression of a row. -/
def Expr.truth (row : Expr → Truth) : Expr → Truth
  | .literal (.boolean true) => .yes
  | .literal (.boolean false) => .no
  | .literal .null => .unknown
  | .all items => Expr.truthOfAll row items
  | .any items => Expr.truthOfAny row items
  | .not inner => (Expr.truth row inner).not
  | e => row e
def Expr.truthOfAll (row : Expr → Truth) : List Expr → Truth
  | [] => .yes
  | e :: rest => (Expr.truth row e).and (Expr.truthOfAll row rest)
def Expr.truthOfAny (row : Expr → Truth) : List Expr → Truth
  | [] => .no
  | e :: rest => (Expr.truth row e).or (Expr.truthOfAny row rest)
end

namespace Expr

variable (row : Expr → Truth)

theorem truthOfAll_yes (es : List Expr) :
    Expr.truthOfAll row es = .yes ↔ ∀ e ∈ es, e.truth row = .yes := by
  induction es with
  | nil => simp [Expr.truthOfAll]
  | cons e rest ih => simp [Expr.truthOfAll, Truth.and_yes, ih]

theorem conjuncts_yes (e : Expr) :
    (∀ c ∈ e.conjuncts, c.truth row = .yes) ↔ e.truth row = .yes := by
  unfold Expr.conjuncts
  split
  · rw [Expr.truth, truthOfAll_yes]
  · simp

/-- Conjunctions are taken apart and put together without a change of their truth. -/
theorem allOf_yes (es : List Expr) :
    ((Expr.allOf es).getD (.bool true)).truth row = .yes ↔ ∀ e ∈ es, e.truth row = .yes := by
  have hflat : (∀ c ∈ es.flatMap Expr.conjuncts, c.truth row = .yes) ↔
      ∀ e ∈ es, e.truth row = .yes := by
    constructor
    · intro h e he
      refine (conjuncts_yes row e).mp ?_
      exact fun c hc => h c (List.mem_flatMap.mpr ⟨e, he, hc⟩)
    · intro h c hc
      obtain ⟨e, he, hc⟩ := List.mem_flatMap.mp hc
      exact (conjuncts_yes row e).mpr (h e he) c hc
  rw [← hflat]
  unfold Expr.allOf
  split
  · rename_i hnil
    simp [hnil, Expr.bool, Expr.truth]
  · rename_i e hone
    simp [hone]
  · rw [Option.getD_some, Expr.truth, truthOfAll_yes]

end Expr

end GraphSelection.Cypher

namespace GraphSelection.Program

open Cypher Plan

/-- The predicate is true of exactly the rows of which all the others are. -/
def Joins (e : Expr) (es : List Expr) : Prop :=
  ∀ row, e.truth row = .yes ↔ ∀ e' ∈ es, e'.truth row = .yes

section Runs

variable {ctx : Context} {q r : Subqueries} {s t : Supply}

theorem predicate_all_ok {cs : List Condition} {e : Expr} :
    Condition.predicate ctx (.all cs) q s = .ok ((e, r), t) ↔
      ∃ es, Condition.predicates ctx cs q s = .ok ((es, r), t) ∧
        e = (Expr.allOf es).getD (.bool true) := by
  simp only [Condition.predicate, predicate_bind_ok, predicate_pure_ok]
  constructor
  · rintro ⟨es, _, _, hes, rfl, rfl, rfl⟩
    exact ⟨es, hes, rfl⟩
  · rintro ⟨es, hes, rfl⟩
    exact ⟨es, _, _, hes, rfl, rfl, rfl⟩

theorem predicates_single_ok {c : Condition} {es : List Expr} :
    Condition.predicates ctx [c] q s = .ok ((es, r), t) ↔
      ∃ e, Condition.predicate ctx c q s = .ok ((e, r), t) ∧ es = [e] := by
  simp only [Condition.predicates, predicate_bind_ok, predicate_pure_ok]
  constructor
  · rintro ⟨e, _, _, he, _, _, _, ⟨rfl, rfl, rfl⟩, rfl, rfl, rfl⟩
    exact ⟨e, he, rfl⟩
  · rintro ⟨e, he, rfl⟩
    exact ⟨e, _, _, he, [], _, _, ⟨rfl, rfl, rfl⟩, rfl, rfl, rfl⟩

theorem predicates_append {cs cs' : List Condition} {es es' : List Expr} {q' : Subqueries}
    {u : Supply} (h : Condition.predicates ctx cs q s = .ok ((es, q'), u))
    (h' : Condition.predicates ctx cs' q' u = .ok ((es', r), t)) :
    Condition.predicates ctx (cs ++ cs') q s = .ok ((es ++ es', r), t) := by
  induction cs generalizing q s es with
  | nil =>
    simp only [Condition.predicates, predicate_pure_ok] at h
    obtain ⟨rfl, rfl, rfl⟩ := h
    exact h'
  | cons c rest ih =>
    simp only [Condition.predicates, predicate_bind_ok, predicate_pure_ok] at h
    obtain ⟨e, q₁, s₁, he, es₁, q₂, s₂, hrest, rfl, rfl, rfl⟩ := h
    simp only [List.cons_append, Condition.predicates, predicate_bind_ok, predicate_pure_ok]
    exact ⟨e, q₁, s₁, he, _, _, _, ih hrest, rfl, rfl, rfl⟩

theorem predicates_single {c : Condition} {e : Expr}
    (h : Condition.predicate ctx c q s = .ok ((e, r), t)) :
    ∃ es, Condition.predicates ctx [c] q s = .ok ((es, r), t) ∧ Joins e es :=
  ⟨[e], predicates_single_ok.mpr ⟨e, h, rfl⟩, fun row => by simp⟩

end Runs

mutual
/-- A condition is compiled like its conjuncts one after the other, at every depth. -/
theorem predicate_flat (ctx : Context) : (c : Condition) → ∀ {e : Expr} {q r : Subqueries}
    {s t : Supply}, Condition.predicate ctx c q s = .ok ((e, r), t) →
    ∃ es, Condition.predicates ctx c.flat q s = .ok ((es, r), t) ∧ Joins e es
  | .all items => by
    intro h
    obtain ⟨parts, hparts, rfl⟩ := predicate_all_ok.mp h
    obtain ⟨es, hes, hjoins⟩ := predicates_flat ctx items hparts
    exact ⟨es, hes, fun row => (Expr.allOf_yes row parts).trans (hjoins row)⟩
  | .any _ => predicates_single
  | .not _ => predicates_single
  | .compare _ _ _ _ => predicates_single
  | .nullness _ _ => predicates_single
  | .labels _ => predicates_single
  | .related _ _ _ _ _ => predicates_single
  | .aggregation _ => predicates_single
  | .authenticated => predicates_single
theorem predicates_flat (ctx : Context) : (cs : List Condition) → ∀ {parts : List Expr}
    {q r : Subqueries} {s t : Supply}, Condition.predicates ctx cs q s = .ok ((parts, r), t) →
    ∃ es, Condition.predicates ctx (Condition.flatOf cs) q s = .ok ((es, r), t) ∧
      ∀ row, (∀ e ∈ parts, e.truth row = .yes) ↔ ∀ e ∈ es, e.truth row = .yes
  | [] => by
    intro h
    exact ⟨_, h, fun row => Iff.rfl⟩
  | c :: rest => by
    intro h
    simp only [Condition.predicates, predicate_bind_ok, predicate_pure_ok] at h
    obtain ⟨e, q₁, s₁, he, es₁, _, _, hrest, rfl, rfl, rfl⟩ := h
    obtain ⟨own, hown, hjoins⟩ := predicate_flat ctx c he
    obtain ⟨others, hothers, hall⟩ := predicates_flat ctx rest hrest
    refine ⟨own ++ others, predicates_append hown hothers, ?_⟩
    intro row
    rw [List.forall_mem_cons, List.forall_mem_append, hjoins row, hall row]
end

/-- A filtered match is compiled from what its filter demands. -/
theorem filteredMatch_flat {ctx : Context} {pattern : Pattern} {c : Condition}
    {clauses : List Clause} {s t : Supply}
    (h : filteredMatch pattern (some c) ctx s = .ok (clauses, t)) :
    ∃ e es r, MatchesWhere pattern e r.calls clauses ∧
      Condition.predicates ctx c.flat {} s = .ok ((es, r), t) ∧ Joins e es := by
  cases (filteredMatch_ok ..).mp h with
  | filtered he hclauses =>
    obtain ⟨es, hes, hjoins⟩ := predicate_flat ctx c he
    exact ⟨_, es, _, hclauses, hes, hjoins⟩

theorem predicates_length {ctx : Context} {cs : List Condition} {es : List Expr}
    {q r : Subqueries} {s t : Supply} (h : Condition.predicates ctx cs q s = .ok ((es, r), t)) :
    es.length = cs.length := by
  induction cs generalizing q s es with
  | nil =>
    simp only [Condition.predicates, predicate_pure_ok] at h
    rw [← h.1]
    rfl
  | cons c rest ih =>
    simp only [Condition.predicates, predicate_bind_ok, predicate_pure_ok] at h
    obtain ⟨e, _, _, _, es', _, _, hrest, rfl, rfl, rfl⟩ := h
    simp [ih hrest]

/-- The clauses match a pattern under a predicate that is true of a row only when the predicate of
the condition is, as it is compiled in the same run. -/
def Enforces (ctx : Context) (pattern : Pattern) (filter : Option Condition) (s : Supply)
    (clauses : List Clause) (c : Condition) : Prop :=
  ∃ predicate es r t, MatchesWhere pattern predicate r.calls clauses ∧
    Condition.predicates ctx (demands filter) {} s = .ok ((es, r), t) ∧
    ∃ e, (c, e) ∈ (demands filter).zip es ∧
      ∀ row, predicate.truth row = .yes → e.truth row = .yes

/-- A filtered match enforces all that its filter demands. -/
theorem enforces_demands {ctx : Context} {pattern : Pattern} {filter : Option Condition}
    {clauses : List Clause} {s t : Supply}
    (h : filteredMatch pattern filter ctx s = .ok (clauses, t)) :
    ∀ c ∈ demands filter, Enforces ctx pattern filter s clauses c := by
  intro c hc
  cases filter with
  | none => simp [demands] at hc
  | some whole =>
    obtain ⟨predicate, es, r, hclauses, hes, hjoins⟩ := filteredMatch_flat h
    rw [← demands_some] at hes
    obtain ⟨i, hi, rfl⟩ := List.mem_iff_getElem.mp hc
    have hi' : i < es.length := by
      rw [predicates_length hes]
      exact hi
    have hzip : i < ((demands (some whole)).zip es).length := by
      rw [List.length_zip]
      omega
    refine ⟨predicate, es, r, t, hclauses, hes, es[i], ?_, ?_⟩
    · rw [← List.getElem_zip (h := hzip)]
      exact List.getElem_mem hzip
    · exact fun row hyes => (hjoins row).mp hyes es[i] (List.getElem_mem hi')

end GraphSelection.Program
