import GraphSelection.Program.Mutation
import GraphSelection.Proofs.Outcomes

/-!
Successful runs. What a sequence of steps has built is known from what each of its steps has
built; the equivalences here take a run apart into the runs of its steps, for building a part of
a program and for building a predicate together with the calls before it. The last one says in full
which clauses a filtered match consists of.
-/
namespace GraphSelection.Program

open Cypher Plan

theorem fail_ok {α : Type} (f : Failure) (s t : Supply) (a : α) :
    (fail f : Build α) s = .ok (a, t) ↔ False := by
  simp [fail]

theorem fresh_ok (hint x : String) (s t : Supply) :
    fresh hint s = .ok (x, t) ↔ s.name hint = x ∧ { s with next := s.next + 1 } = t := by
  simp [fresh]

theorem param_ok (value : Doc) (e : Expr) (s t : Supply) :
    param value s = .ok (e, t) ↔ .param (s.name "param") = e ∧
      { next := s.next + 1, params := s.params ++ [(s.name "param", value)] } = t := by
  simp [param]

section Predicate

variable {α β : Type}

theorem predicate_bind_ok (x : Predicate α) (f : α → Predicate β) (q r : Subqueries)
    (s u : Supply) (b : β) :
    (x >>= f) q s = .ok ((b, r), u) ↔
      ∃ a q' t, x q s = .ok ((a, q'), t) ∧ f a q' t = .ok ((b, r), u) := by
  change ((x q >>= fun p => f p.1 p.2) : Build (β × Subqueries)) s = _ ↔ _
  rw [bind_ok]
  constructor
  · rintro ⟨⟨a, q'⟩, t, h⟩
    exact ⟨a, q', t, h⟩
  · rintro ⟨a, q', t, h⟩
    exact ⟨(a, q'), t, h⟩

theorem predicate_pure_ok (a b : α) (q r : Subqueries) (s t : Supply) :
    (pure a : Predicate α) q s = .ok ((b, r), t) ↔ a = b ∧ q = r ∧ s = t := by
  change Except.ok ((a, q), s) = .ok ((b, r), t) ↔ _
  simp [and_assoc]

theorem predicate_lift_ok (x : Build α) (q r : Subqueries) (s t : Supply) (a : α) :
    (liftM x : Predicate α) q s = .ok ((a, r), t) ↔ x s = .ok (a, t) ∧ q = r := by
  change ((x >>= fun a => pure (a, q)) : Build (α × Subqueries)) s = _ ↔ _
  simp only [bind_ok, pure_ok, Prod.mk.injEq]
  constructor
  · rintro ⟨a', t', h, ⟨rfl, rfl⟩, rfl⟩
    exact ⟨h, rfl⟩
  · rintro ⟨h, rfl⟩
    exact ⟨a, t, h, ⟨rfl, rfl⟩, rfl⟩

theorem predicate_fault_ok (x : Except Failure α) (q r : Subqueries) (s t : Supply) (a : α) :
    (liftM x : Predicate α) q s = .ok ((a, r), t) ↔ x = .ok a ∧ q = r ∧ s = t := by
  change (liftM (liftM x : Build α) : Predicate α) q s = _ ↔ _
  rw [predicate_lift_ok, lift_ok]
  simp only [and_assoc, and_comm]

theorem predicate_get_ok (q r q' : Subqueries) (s t : Supply) :
    (get : Predicate Subqueries) q s = .ok ((r, q'), t) ↔ q = r ∧ q = q' ∧ s = t := by
  change Except.ok ((q, q), s) = _ ↔ _
  simp [and_assoc]

theorem predicate_modify_ok (f : Subqueries → Subqueries) (u : PUnit) (q r : Subqueries)
    (s t : Supply) :
    (modify f : Predicate PUnit) q s = .ok ((u, r), t) ↔ f q = r ∧ s = t := by
  change Except.ok ((PUnit.unit, f q), s) = _ ↔ _
  simp

theorem gathered_ok (p : Predicate α) (a : α) (calls : List Clause) (s t : Supply) :
    gathered p s = .ok ((a, calls), t) ↔ ∃ q, p {} s = .ok ((a, q), t) ∧ q.calls = calls := by
  simp only [gathered, StateT.run, bind_ok, pure_ok, Prod.mk.injEq]
  constructor
  · rintro ⟨⟨a', q⟩, t', h, ⟨rfl, rfl⟩, rfl⟩
    exact ⟨q, h, rfl⟩
  · rintro ⟨q, h, rfl⟩
    exact ⟨(a, q), t, h, ⟨rfl, rfl⟩, rfl⟩

end Predicate

/-- A shared call is either known by its key or made now, under a new name. -/
theorem shared_ok (key : String) (call : String → Build Clause) (name : String)
    (q r : Subqueries) (s u : Supply) (h : shared key call q s = .ok ((name, r), u)) :
    (q.known.get? key = some name ∧ r = q ∧ u = s) ∨
      ∃ clause, name = s.name "var" ∧
        call name { s with next := s.next + 1 } = .ok (clause, u) ∧
        r = { known := q.known ++ [(key, name)], calls := q.calls ++ [clause] } := by
  simp only [shared, predicate_bind_ok, predicate_get_ok] at h
  obtain ⟨_, _, _, ⟨rfl, rfl, rfl⟩, h⟩ := h
  cases hknown : q.known.get? key with
  | some found =>
    simp only [hknown, predicate_pure_ok] at h
    obtain ⟨rfl, rfl, rfl⟩ := h
    exact .inl ⟨rfl, rfl, rfl⟩
  | none =>
    simp only [hknown, predicate_bind_ok, predicate_lift_ok, fresh_ok, predicate_modify_ok,
      predicate_pure_ok] at h
    obtain ⟨_, _, _, ⟨⟨rfl, rfl⟩, rfl⟩, clause, _, _, ⟨hcall, rfl⟩, _, _, _, ⟨rfl, rfl⟩, rfl, rfl,
      rfl⟩ := h
    exact .inr ⟨clause, rfl, hcall, rfl⟩

/-- The clauses match the pattern where the predicate holds: it stands in the match itself or, after
the calls that it needs, in a `WITH *`. -/
inductive MatchesWhere (pattern : Pattern) (predicate : Expr) : List Clause → List Clause → Prop
  | matching : MatchesWhere pattern predicate [] [.matching pattern false (some predicate)]
  | carry {calls : List Clause} (hcalls : calls ≠ []) :
      MatchesWhere pattern predicate calls
        (.matching pattern false none :: calls ++
          [.carry [⟨.star, none⟩] false [] none none (some predicate)])

/-- The clauses match the pattern under the filter, as its predicate is compiled. -/
inductive Filtered (ctx : Context) (pattern : Pattern) (s : Supply) :
    Option Condition → List Clause → Supply → Prop
  | unfiltered : Filtered ctx pattern s none [.matching pattern false none] s
  | filtered {c : Condition} {e : Expr} {r : Subqueries} {clauses : List Clause} {t : Supply}
      (hpredicate : Condition.predicate ctx c {} s = .ok ((e, r), t))
      (hclauses : MatchesWhere pattern e r.calls clauses) :
      Filtered ctx pattern s (some c) clauses t

theorem narrowed_iff (pattern : Pattern) (calls : List Clause) (predicate : Expr)
    (clauses : List Clause) :
    narrowed pattern calls (some predicate) = clauses ↔
      MatchesWhere pattern predicate calls clauses := by
  cases calls with
  | nil =>
    constructor
    · rintro rfl
      exact .matching
    · intro h
      cases h with
      | matching => rfl
      | carry hcalls => exact absurd rfl hcalls
  | cons call calls =>
    constructor
    · rintro rfl
      exact .carry (List.cons_ne_nil call calls)
    · intro h
      cases h with
      | carry _ => rfl

theorem filteredMatch_ok (pattern : Pattern) (filter : Option Condition) (ctx : Context)
    (clauses : List Clause) (s t : Supply) :
    filteredMatch pattern filter ctx s = .ok (clauses, t) ↔
      Filtered ctx pattern s filter clauses t := by
  simp only [filteredMatch, bind_ok, pure_ok]
  cases filter with
  | none =>
    simp only [Prod.exists, gathered_ok, Condition.optionPredicate, predicate_pure_ok]
    constructor
    · rintro ⟨_, _, _, ⟨_, ⟨rfl, rfl, rfl⟩, rfl⟩, rfl, rfl⟩
      exact .unfiltered
    · intro h
      cases h with
      | unfiltered => exact ⟨_, _, _, ⟨_, ⟨rfl, rfl, rfl⟩, rfl⟩, rfl, rfl⟩
  | some c =>
    simp only [Prod.exists, gathered_ok, Condition.optionPredicate, predicate_bind_ok,
      predicate_pure_ok]
    constructor
    · rintro ⟨_, _, _, ⟨_, ⟨e, _, _, he, rfl, rfl, rfl⟩, rfl⟩, hclauses, rfl⟩
      exact .filtered he ((narrowed_iff ..).mp hclauses)
    · intro h
      cases h with
      | filtered he hclauses =>
        exact ⟨_, _, _, ⟨_, ⟨_, _, _, he, rfl, rfl, rfl⟩, rfl⟩, (narrowed_iff ..).mpr hclauses, rfl⟩

end GraphSelection.Program
