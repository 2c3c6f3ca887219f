import GraphSelection.Proofs.Minting
import GraphSelection.Program.Pattern

/-!
Small laws of the scope rules: clauses in a row, blocks that end in one column, and calls that add
what they return. Most parts of a program are lists of calls that need a few names and provide
new ones; such lists follow one another without further conditions.
-/
namespace GraphSelection.Scoping

open Cypher Program Minting

section

variable {returns : String → Names}

theorem Runs.append {scope between after : Names} {first second : List Clause}
    (h : Runs returns scope first between) (h' : Runs returns between second after) :
    Runs returns scope (first ++ second) after := by
  induction first generalizing scope with
  | nil =>
    cases h
    exact h'
  | cons c rest ih =>
    cases h with
    | cons hc hrest => exact .cons hc (ih hrest)

theorem Runs.single {scope after : Names} {c : Clause} (h : Step returns scope c after) :
    Runs returns scope [c] after :=
  .cons h .nil

theorem Runs.snoc {scope between after : Names} {first : List Clause} {c : Clause}
    (h : Runs returns scope first between) (hc : Step returns between c after) :
    Runs returns scope (first ++ [c]) after :=
  h.append (.single hc)

theorem Gives.prepend {scope between columns : Names} {first body : List Clause}
    (h : Runs returns scope first between) (h' : Gives returns between body columns) :
    Gives returns scope (first ++ body) columns := by
  cases h' with
  | returning isDistinct hbefore hcolumns =>
    rw [← List.append_assoc]
    exact .returning isDistinct (h.append hbefore) hcolumns
  | statement text hbefore =>
    rw [← List.append_assoc]
    exact .statement text (h.append hbefore)

theorem Gives.cons {scope between columns : Names} {c : Clause} {body : List Clause}
    (h : Step returns scope c between) (h' : Gives returns between body columns) :
    Gives returns scope (c :: body) columns :=
  Gives.prepend (.single h) h'

theorem gives_raw {scope : Names} (text : String) :
    Gives returns scope [.raw text] (returns text) := by
  have h : Gives returns scope ([] ++ [.raw text]) (returns text) := .statement text .nil
  exact h

theorem exposed_named (scope : Names) {pairs : List (String × Expr)}
    (h : ∀ p ∈ pairs, p.2 ≠ .star) :
    exposed scope (pairs.map fun p => Column.named p.2 p.1) = pairs.map Prod.fst := by
  induction pairs with
  | nil => rfl
  | cons p rest ih =>
    obtain ⟨name, e⟩ := p
    have hstar : e ≠ .star := h (name, e) List.mem_cons_self
    have hrest := ih fun q hq => h q (List.mem_cons_of_mem _ hq)
    simp only [exposed, List.map_cons, List.flatMap_cons] at hrest ⊢
    rw [hrest]
    cases e <;> simp_all [Column.named, Column.name?]

/-- A `RETURN` of named values. -/
theorem gives_giveAll {scope : Names} {pairs : List (String × Expr)}
    (h : ∀ p ∈ pairs, Refers returns scope p.2) (hstar : ∀ p ∈ pairs, p.2 ≠ .star) :
    Gives returns scope [.giveAll (pairs.map fun p => Column.named p.2 p.1)]
      (pairs.map Prod.fst) := by
  have hcolumns : ∀ c ∈ pairs.map fun p => Column.named p.2 p.1,
      Refers returns scope c.expression := by
    intro c hc
    obtain ⟨p, hp, rfl⟩ := List.mem_map.mp hc
    exact h p hp
  have hgives := Gives.returning false (.nil : Runs returns scope [] scope) hcolumns
  rw [exposed_named scope hstar] at hgives
  exact hgives

/-- A `RETURN` of one named value. -/
theorem gives_give {scope : Names} {e : Expr} (name : String) (he : Refers returns scope e)
    (hstar : e ≠ .star) : Gives returns scope [.give e name] [name] := by
  have h : Gives returns scope
      [.giveAll ([(name, e)].map fun p => Column.named p.2 p.1)] ([(name, e)].map Prod.fst) :=
    gives_giveAll (by simpa using he) (by simpa using hstar)
  exact h

theorem exposed_star (scope : Names) : exposed scope [Column.star] = scope := by
  simp [exposed, Column.star]

theorem exposed_vars (scope names : Names) :
    exposed scope (names.map Column.var) = names := by
  induction names with
  | nil => rfl
  | cons x rest ih =>
    have hcons : exposed scope ((x :: rest).map Column.var) =
        x :: exposed scope (rest.map Column.var) := rfl
    rw [hcons, ih]

/-- A match without a condition. -/
theorem step_find {scope : Names} {p : Pattern} (hstart : ∀ x ∈ startedFrom p, x ∈ scope)
    (hnew : Fresh scope (found p)) : Step returns scope (.find p none) (scope ++ found p) := by
  refine .matching false hstart hnew ?_
  simp

/-- Going on with everything and a condition on it. -/
theorem step_keep {scope : Names} {e : Expr} (he : Refers returns scope e) :
    Step returns scope (.keep e) scope := by
  have h : Step returns scope (.keep e) (exposed scope [Column.star]) := by
    refine .carry false ?_ ?_ ?_ ?_ ?_
    · intro c hc
      rw [List.mem_singleton] at hc
      subst hc
      exact .star
    · simp
    · simp
    · simp
    · intro e' he'
      rw [Option.mem_some_iff] at he'
      rw [exposed_star, ← he']
      exact he
  rwa [exposed_star] at h

/-- Going on with everything in an order and in bounds. -/
theorem step_window {scope : Names} {order : List (OrderKey Expr)} {skip limit : Option Expr}
    (horder : ∀ k ∈ order, Refers returns scope k.expression)
    (hskip : ∀ e ∈ skip, Refers returns scope e) (hlimit : ∀ e ∈ limit, Refers returns scope e) :
    Step returns scope (.window order skip limit) scope := by
  have h : Step returns scope (.window order skip limit) (exposed scope [Column.star]) := by
    refine .carry false ?_ ?_ ?_ ?_ ?_
    · intro c hc
      rw [List.mem_singleton] at hc
      subst hc
      exact .star
    · rwa [exposed_star]
    · rwa [exposed_star]
    · rwa [exposed_star]
    · simp
  rwa [exposed_star] at h

/-- Going on with some columns only. -/
theorem step_carryOnly {scope after : Names} {columns : List (Column Expr)}
    (hcolumns : ∀ c ∈ columns, Refers returns scope c.expression)
    (hafter : exposed scope columns = after) :
    Step returns scope (.carryOnly columns) after := by
  subst hafter
  refine .carry false hcolumns ?_ ?_ ?_ ?_ <;> simp

theorem step_carryAll {scope : Names} : Step returns scope .carryAll scope := by
  refine step_carryOnly ?_ (exposed_star scope)
  intro c hc
  rw [List.mem_singleton] at hc
  subst hc
  exact .star

/-- A new `WITH` between writing and reading keeps the scope. -/
theorem Runs.andThen {scope between after : Names} {first second : List Clause}
    (h : Runs returns scope first between) (h' : Runs returns between second after) :
    Runs returns scope (Program.andThen first second) after := by
  unfold Program.andThen
  split
  · exact h.append (.cons step_carryAll h')
  · exact h.append h'

/-- Clauses that add some names wherever the needed ones are known. -/
structure Provides (returns : String → Names) (needs : Names) (n m : Nat) (clauses : List Clause)
    (names : Names) : Prop where
  le : n ≤ m
  within : Within names n m
  runs : ∀ scope, (∀ x ∈ needs, x ∈ scope) → Clear scope n m →
    Runs returns scope clauses (scope ++ names)

namespace Provides

variable {needs names more : Names} {n m k : Nat} {clauses rest : List Clause}

theorem nil (needs : Names) {n m : Nat} (h : n ≤ m) : Provides returns needs n m [] [] where
  le := h
  within := .nil n m
  runs scope _ _ := by
    rw [List.append_nil]
    exact .nil

theorem append (h : Provides returns needs n m clauses names)
    (h' : Provides returns needs m k rest more) :
    Provides returns needs n k (clauses ++ rest) (names ++ more) where
  le := Nat.le_trans h.le h'.le
  within := (h.within.mono (Nat.le_refl n) h'.le).append (h'.within.mono h.le (Nat.le_refl k))
  runs scope hneeds hclear := by
    have hfirst := h.runs scope hneeds (hclear.sub (Nat.le_refl n) h'.le)
    have hsecond := h'.runs (scope ++ names)
      (fun x hx => List.mem_append_left names (hneeds x hx))
      ((hclear.sub h.le (Nat.le_refl k)).append (h.within.clear k))
    rw [← List.append_assoc]
    exact hfirst.append hsecond

theorem widen (h : Provides returns needs n m clauses names) {k l : Nat} (hk : k ≤ n)
    (hl : m ≤ l) : Provides returns needs k l clauses names where
  le := Nat.le_trans hk (Nat.le_trans h.le hl)
  within := h.within.mono hk hl
  runs scope hneeds hclear := h.runs scope hneeds (hclear.sub hk hl)

theorem of_needs {needs' : Names} (h : Provides returns needs n m clauses names)
    (hsub : ∀ x ∈ needs, x ∈ needs') : Provides returns needs' n m clauses names where
  le := h.le
  within := h.within
  runs scope hneeds hclear := h.runs scope (fun x hx => hneeds x (hsub x hx)) hclear

/-- Where no clause stands, nothing is added. -/
theorem names_nil {scope : Names} (h : Provides returns needs n m [] names)
    (hneeds : ∀ x ∈ needs, x ∈ scope) (hclear : Clear scope n m) : names = [] := by
  have hruns := h.runs scope hneeds hclear
  generalize hafter : scope ++ names = after at hruns
  cases hruns
  simpa using hafter

/-- One call that returns a new name. -/
theorem call {imports : Names} {body : List Clause} {x : String} (hx : Within [x] n m)
    (himports : ∀ y ∈ imports, y ∈ needs) (hbody : Gives returns imports body [x]) :
    Provides returns needs n m [.call imports body] [x] where
  le := by
    obtain ⟨i, hi, hm, _⟩ := hx x List.mem_cons_self
    omega
  within := hx
  runs _ hneeds hclear :=
    .single (.call (fun y hy => hneeds y (himports y hy)) hbody (hx.fresh hclear))

end Provides

/-- Clauses after which some names are known, all of them older than the number. -/
def Reaches (returns : String → Names) (scope : Names) (clauses : List Clause) (needs : Names)
    (n : Nat) : Prop :=
  ∃ after, Runs returns scope clauses after ∧ (∀ x ∈ needs, x ∈ after) ∧ ∀ x ∈ after, Older n x

namespace Reaches

variable {scope needs names : Names} {n m : Nat} {clauses rest : List Clause}

theorem append {needs' : Names} (h : Reaches returns scope clauses needs n)
    (h' : Provides returns needs' n m rest names) (hsub : ∀ x ∈ needs', x ∈ needs) :
    Reaches returns scope (clauses ++ rest) needs m := by
  obtain ⟨after, hruns, hneeds, holder⟩ := h
  refine ⟨after ++ names, hruns.append (h'.runs after (fun x hx => hneeds x (hsub x hx))
    (Clear.of_older holder m)), fun x hx => List.mem_append_left names (hneeds x hx), ?_⟩
  intro x hx
  rcases List.mem_append.mp hx with hx | hx
  · exact (holder x hx).mono h'.le
  · exact h'.within.older x hx

theorem andThen {needs' : Names} (h : Reaches returns scope clauses needs n)
    (h' : Provides returns needs' n m rest names) (hsub : ∀ x ∈ needs', x ∈ needs) :
    Reaches returns scope (Program.andThen clauses rest) needs m := by
  unfold Program.andThen
  split
  · obtain ⟨after, hruns, hneeds, holder⟩ := h
    have hcarried : Reaches returns scope (clauses ++ [Clause.carryAll]) needs n :=
      ⟨after, hruns.snoc step_carryAll, hneeds, holder⟩
    have hall := hcarried.append h' hsub
    rwa [List.append_assoc] at hall
  · exact h.append h' hsub

end Reaches

/-- Clauses that add some names, and expressions over the needed and the added ones. -/
structure Yields (returns : String → Names) (needs : Names) (n m : Nat) (clauses : List Clause)
    (names : Names) (es : List Expr) : Prop extends Provides returns needs n m clauses names where
  refers : ∀ scope, (∀ x ∈ needs, x ∈ scope) → (∀ x ∈ names, x ∈ scope) →
    ∀ e ∈ es, Refers returns scope e
  notStar : ∀ e ∈ es, e ≠ .star

namespace Yields

variable {needs names more : Names} {n m k : Nat} {clauses rest : List Clause}
  {es es' : List Expr}

theorem nil (needs : Names) {n m : Nat} (h : n ≤ m) : Yields returns needs n m [] [] [] where
  toProvides := .nil needs h
  refers := by simp
  notStar := by simp

theorem append (h : Yields returns needs n m clauses names es)
    (h' : Yields returns needs m k rest more es') :
    Yields returns needs n k (clauses ++ rest) (names ++ more) (es ++ es') where
  toProvides := h.toProvides.append h'.toProvides
  refers scope hneeds hnames e he := by
    rcases List.mem_append.mp he with he | he
    · exact h.refers scope hneeds (fun x hx => hnames x (List.mem_append_left more hx)) e he
    · exact h'.refers scope hneeds (fun x hx => hnames x (List.mem_append_right names hx)) e he
  notStar e he := by
    rcases List.mem_append.mp he with he | he
    · exact h.notStar e he
    · exact h'.notStar e he

/-- Clauses without an expression. -/
theorem quiet (h : Provides returns needs n m clauses names) :
    Yields returns needs n m clauses names [] where
  toProvides := h
  refers := by simp
  notStar := by simp

theorem of_needs {needs' : Names} (h : Yields returns needs n m clauses names es)
    (hsub : ∀ x ∈ needs, x ∈ needs') : Yields returns needs' n m clauses names es where
  toProvides := h.toProvides.of_needs hsub
  refers scope hneeds := h.refers scope fun x hx => hneeds x (hsub x hx)
  notStar := h.notStar

/-- An expression that needs no call. -/
theorem inline {e : Expr} (hstar : e ≠ .star) (h : n ≤ m)
    (he : ∀ scope, (∀ x ∈ needs, x ∈ scope) → Refers returns scope e) :
    Yields returns needs n m [] [] [e] where
  toProvides := .nil needs h
  refers scope hneeds _ e' he' := by
    rw [List.mem_singleton] at he'
    subst he'
    exact he scope hneeds
  notStar := by
    simpa using hstar

/-- The names that calls add, each as a variable. -/
theorem ofProvides {x : String} (h : Provides returns needs n m clauses [x]) :
    Yields returns needs n m clauses [x] [.var x] where
  toProvides := h
  refers scope _ hnames e he := by
    rw [List.mem_singleton] at he
    subst he
    exact .var (hnames x List.mem_cons_self)
  notStar := by simp

/-- Other expressions over the same names. -/
theorem rewrap (h : Yields returns needs n m clauses names es) (hstar : ∀ e ∈ es', e ≠ .star)
    (hes : ∀ scope, (∀ x ∈ needs, x ∈ scope) → (∀ e ∈ es, Refers returns scope e) →
      ∀ e ∈ es', Refers returns scope e) :
    Yields returns needs n m clauses names es' where
  toProvides := h.toProvides
  refers scope hneeds hnames := hes scope hneeds (h.refers scope hneeds hnames)
  notStar := hstar

end Yields

end

end GraphSelection.Scoping
