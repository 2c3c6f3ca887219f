import GraphSelection.Plan.Outline
import GraphSelection.Proofs.Rows.Scopes

/-!
How deep the blocks of a program stand in one another, and how deep the plan of the program is. The
blocks that a condition needs are at most two more than its own depth: a computed attribute is a
call within a call, and only a scope of the condition puts a block around what it asks for.
-/
namespace GraphSelection.Cypher

mutual
/-- The longest chain of calls and of blocks inside expressions; branches of a union do not
count. -/
def Expr.nesting : Expr → Nat
  | .var _ => 0
  | .param _ => 0
  | .literal _ => 0
  | .property base _ => base.nesting
  | .binary left _ right => max left.nesting right.nesting
  | .all items => Expr.nestingOf items
  | .any items => Expr.nestingOf items
  | .not inner => inner.nesting
  | .isNull inner => inner.nesting
  | .isNotNull inner => inner.nesting
  | .apply _ args => Expr.nestingOf args
  | .distinct inner => inner.nesting
  | .hasLabels _ _ => 0
  | .map entries => Expr.nestingOfEntries entries
  | .projection _ items => Expr.nestingOfProjection items
  | .list items => Expr.nestingOf items
  | .choice condition result otherwise =>
      max (max condition.nesting result.nesting) otherwise.nesting
  | .comprehension _ source body => max source.nesting body.nesting
  | .existsIn body => Clause.nestingOf body + 1
  | .countIn body => Clause.nestingOf body + 1
  | .star => 0
def Expr.nestingOf : List Expr → Nat
  | [] => 0
  | e :: rest => max e.nesting (Expr.nestingOf rest)
def Expr.nestingOfOption : Option Expr → Nat
  | none => 0
  | some e => e.nesting
def Expr.nestingOfEntries : List (String × Expr) → Nat
  | [] => 0
  | (_, e) :: rest => max e.nesting (Expr.nestingOfEntries rest)
def Expr.nestingOfProjection : List (MapItem Expr) → Nat
  | [] => 0
  | .own _ :: rest => Expr.nestingOfProjection rest
  | .entry _ e :: rest => max e.nesting (Expr.nestingOfProjection rest)
def Expr.nestingOfColumns : List (Column Expr) → Nat
  | [] => 0
  | ⟨e, _⟩ :: rest => max e.nesting (Expr.nestingOfColumns rest)
def Expr.nestingOfOrder : List (OrderKey Expr) → Nat
  | [] => 0
  | ⟨e, _⟩ :: rest => max e.nesting (Expr.nestingOfOrder rest)
def Expr.nestingOfPairs : List (Expr × Expr) → Nat
  | [] => 0
  | (left, right) :: rest => max (max left.nesting right.nesting) (Expr.nestingOfPairs rest)
def Clause.nesting : Clause → Nat
  | .matching _ _ predicate => Expr.nestingOfOption predicate
  | .carry columns _ order skip limit predicate =>
      max (max (max (Expr.nestingOfColumns columns) (Expr.nestingOfOrder order))
        (max (Expr.nestingOfOption skip) (Expr.nestingOfOption limit)))
        (Expr.nestingOfOption predicate)
  | .unwind e _ => e.nesting
  | .call _ body => Clause.nestingOf body + 1
  | .union branches => Clause.nestingOfBranches branches
  | .create _ => 0
  | .merge _ => 0
  | .set assignments => Expr.nestingOfPairs assignments
  | .delete _ _ => 0
  | .returning columns _ => Expr.nestingOfColumns columns
  | .raw _ => 0
def Clause.nestingOf : List Clause → Nat
  | [] => 0
  | c :: rest => max c.nesting (Clause.nestingOf rest)
def Clause.nestingOfBranches : List (List Clause) → Nat
  | [] => 0
  | b :: rest => max (Clause.nestingOf b) (Clause.nestingOfBranches rest)
end

section Lists

variable {n : Nat}

attribute [local simp] Expr.nesting Expr.nestingOf Expr.nestingOfOption Expr.nestingOfEntries
  Expr.nestingOfProjection Expr.nestingOfColumns Expr.nestingOfOrder Clause.nesting
  Clause.nestingOf Clause.nestingOfBranches

theorem nestingOf_le {es : List Expr} : Expr.nestingOf es ≤ n ↔ ∀ e ∈ es, e.nesting ≤ n := by
  induction es with
  | nil => simp
  | cons e rest ih => rw [Expr.nestingOf, Nat.max_le, List.forall_mem_cons, ih]

theorem nestingOfOption_le {e : Option Expr} :
    Expr.nestingOfOption e ≤ n ↔ ∀ p ∈ e, p.nesting ≤ n := by
  cases e <;> simp

theorem nestingOfEntries_le {entries : List (String × Expr)} :
    Expr.nestingOfEntries entries ≤ n ↔ ∀ p ∈ entries, p.2.nesting ≤ n := by
  induction entries with
  | nil => simp
  | cons p rest ih => rw [Expr.nestingOfEntries, Nat.max_le, List.forall_mem_cons, ih]

theorem nestingOfProjection_le {items : List (MapItem Expr)} :
    Expr.nestingOfProjection items ≤ n ↔ ∀ key e, .entry key e ∈ items → e.nesting ≤ n := by
  induction items with
  | nil => simp
  | cons item rest ih =>
    cases item with
    | own key => simp [ih]
    | entry key e =>
      rw [Expr.nestingOfProjection, Nat.max_le, ih]
      constructor
      · rintro ⟨he, hrest⟩ key' e' hmem
        rcases List.mem_cons.mp hmem with heq | hmem
        · cases heq
          exact he
        · exact hrest key' e' hmem
      · exact fun h => ⟨h key e List.mem_cons_self,
          fun key' e' hmem => h key' e' (List.mem_cons_of_mem _ hmem)⟩

theorem nestingOfColumns_le {columns : List (Column Expr)} :
    Expr.nestingOfColumns columns ≤ n ↔ ∀ c ∈ columns, c.expression.nesting ≤ n := by
  induction columns with
  | nil => simp
  | cons c rest ih => rw [Expr.nestingOfColumns, Nat.max_le, List.forall_mem_cons, ih]

theorem nestingOfOrder_le {order : List (OrderKey Expr)} :
    Expr.nestingOfOrder order ≤ n ↔ ∀ key ∈ order, key.expression.nesting ≤ n := by
  induction order with
  | nil => simp
  | cons key rest ih => rw [Expr.nestingOfOrder, Nat.max_le, List.forall_mem_cons, ih]

theorem nestingOfBranches_le {branches : List (List Clause)} :
    Clause.nestingOfBranches branches ≤ n ↔ ∀ b ∈ branches, Clause.nestingOf b ≤ n := by
  induction branches with
  | nil => simp
  | cons b rest ih => rw [Clause.nestingOfBranches, Nat.max_le, List.forall_mem_cons, ih]

@[simp] theorem nestingOf_nil : Clause.nestingOf [] = 0 := by rw [Clause.nestingOf]

@[simp] theorem nestingOf_cons (c : Clause) (cs : List Clause) :
    Clause.nestingOf (c :: cs) = max c.nesting (Clause.nestingOf cs) := by
  rw [Clause.nestingOf]

theorem clauses_nesting_le {cs : List Clause} :
    Clause.nestingOf cs ≤ n ↔ ∀ c ∈ cs, c.nesting ≤ n := by
  induction cs with
  | nil => simp
  | cons c rest ih => rw [Clause.nestingOf, Nat.max_le, List.forall_mem_cons, ih]

@[simp] theorem nestingOf_append (cs cs' : List Clause) :
    Clause.nestingOf (cs ++ cs') = max (Clause.nestingOf cs) (Clause.nestingOf cs') := by
  induction cs with
  | nil => simp
  | cons c rest ih => simp [ih, Nat.max_assoc]

@[simp] theorem nesting_call (imports : List String) (body : List Clause) :
    (Clause.call imports body).nesting = Clause.nestingOf body + 1 := by
  rw [Clause.nesting]

@[simp] theorem nesting_find (pattern : Pattern) (predicate : Option Expr) :
    (Clause.find pattern predicate).nesting = Expr.nestingOfOption predicate := by
  rw [Clause.find, Clause.nesting]

@[simp] theorem nesting_giveAll (columns : List (Column Expr)) :
    (Clause.giveAll columns).nesting = Expr.nestingOfColumns columns := by
  rw [Clause.giveAll, Clause.nesting]

@[simp] theorem nesting_give (e : Expr) (name : String) :
    (Clause.give e name).nesting = e.nesting := by
  simp [Clause.give, Column.named]

@[simp] theorem nesting_carryOnly (columns : List (Column Expr)) :
    (Clause.carryOnly columns).nesting = Expr.nestingOfColumns columns := by
  simp [Clause.carryOnly]

@[simp] theorem nesting_carryAll : Clause.carryAll.nesting = 0 := by
  simp [Clause.carryAll, Column.star]

@[simp] theorem nesting_keep (e : Expr) : (Clause.keep e).nesting = e.nesting := by
  simp [Clause.keep, Column.star]

@[simp] theorem nesting_window (order : List (OrderKey Expr)) (skip limit : Option Expr) :
    (Clause.window order skip limit).nesting = max (Expr.nestingOfOrder order)
      (max (Expr.nestingOfOption skip) (Expr.nestingOfOption limit)) := by
  simp [Clause.window, Column.star]

theorem nesting_partwise : Partwise fun e => e.nesting ≤ n where
  all _ := nestingOf_le
  any _ := nestingOf_le
  bool _ := Nat.zero_le n

end Lists

end GraphSelection.Cypher

namespace GraphSelection.Plan

namespace Outline

variable {n : Nat}

theorem depthOf_le {os : List Outline} : depthOf os ≤ n ↔ ∀ o ∈ os, o.depth ≤ n := by
  induction os with
  | nil => simp [depthOf]
  | cons o rest ih => rw [depthOf, Nat.max_le, List.forall_mem_cons, ih]

@[simp] theorem depthOf_append (os os' : List Outline) :
    depthOf (os ++ os') = max (depthOf os) (depthOf os') := by
  induction os with
  | nil => simp [depthOf]
  | cons o rest ih => simp [depthOf, ih, Nat.max_assoc]

end Outline

theorem depthOf_validationOutlines {validations : List Condition} {n : Nat} :
    Outline.depthOf (validationOutlines validations) ≤ n ↔
      ∀ c ∈ validations, c.outline.depth ≤ n := by
  simp [Outline.depthOf_le, validationOutlines, Outline.depth, Outline.depthOf]

end GraphSelection.Plan
