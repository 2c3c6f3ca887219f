import GraphSelection.Program.Pattern
import GraphSelection.Proofs.Partwise

/-!
The property accesses of a program: which properties its expressions read, off which variables, and
which properties its clauses write, at every depth. Map projections read the properties that they
name in short. A statement that the schema supplies is text and is not looked into.
-/
namespace GraphSelection.Cypher

structure Access where
  writes : Bool
  /-- The variable whose property it is; none where the property is taken of a longer
  expression. -/
  holder : Option String
  key : String
  deriving DecidableEq

def Expr.variable? : Expr → Option String
  | .var name => some name
  | _ => none

mutual
def Expr.accesses : Expr → List Access
  | .var _ => []
  | .param _ => []
  | .literal _ => []
  | .property base key => ⟨false, base.variable?, key⟩ :: base.accesses
  | .binary left _ right => left.accesses ++ right.accesses
  | .all items => Expr.accessesOf items
  | .any items => Expr.accessesOf items
  | .not inner => inner.accesses
  | .isNull inner => inner.accesses
  | .isNotNull inner => inner.accesses
  | .apply _ args => Expr.accessesOf args
  | .distinct inner => inner.accesses
  | .hasLabels _ _ => []
  | .map entries => Expr.accessesOfEntries entries
  | .projection name items => Expr.accessesOfProjection name items
  | .list items => Expr.accessesOf items
  | .choice condition result otherwise =>
      condition.accesses ++ result.accesses ++ otherwise.accesses
  | .comprehension _ source body => source.accesses ++ body.accesses
  | .existsIn body => Clause.accessesOf body
  | .countIn body => Clause.accessesOf body
  | .star => []
def Expr.accessesOf : List Expr → List Access
  | [] => []
  | e :: rest => e.accesses ++ Expr.accessesOf rest
def Expr.accessesOfOption : Option Expr → List Access
  | none => []
  | some e => e.accesses
def Expr.accessesOfEntries : List (String × Expr) → List Access
  | [] => []
  | (_, e) :: rest => e.accesses ++ Expr.accessesOfEntries rest
def Expr.accessesOfProjection (name : String) : List (MapItem Expr) → List Access
  | [] => []
  | .own key :: rest => ⟨false, some name, key⟩ :: Expr.accessesOfProjection name rest
  | .entry _ e :: rest => e.accesses ++ Expr.accessesOfProjection name rest
def Expr.accessesOfColumns : List (Column Expr) → List Access
  | [] => []
  | ⟨e, _⟩ :: rest => e.accesses ++ Expr.accessesOfColumns rest
def Expr.accessesOfOrder : List (OrderKey Expr) → List Access
  | [] => []
  | ⟨e, _⟩ :: rest => e.accesses ++ Expr.accessesOfOrder rest
/-- The property on the left of an assignment is written. -/
def Expr.accessesOfPairs : List (Expr × Expr) → List Access
  | [] => []
  | (.property base key, right) :: rest =>
      ⟨true, base.variable?, key⟩ :: (base.accesses ++ right.accesses) ++
        Expr.accessesOfPairs rest
  | (left, right) :: rest => left.accesses ++ right.accesses ++ Expr.accessesOfPairs rest
def Clause.accesses : Clause → List Access
  | .matching _ _ predicate => Expr.accessesOfOption predicate
  | .carry columns _ order skip limit predicate =>
      Expr.accessesOfColumns columns ++ Expr.accessesOfOrder order ++
        Expr.accessesOfOption skip ++ Expr.accessesOfOption limit ++
        Expr.accessesOfOption predicate
  | .unwind e _ => e.accesses
  | .call _ body => Clause.accessesOf body
  | .union branches => Clause.accessesOfBranches branches
  | .create _ => []
  | .merge _ => []
  | .set assignments => Expr.accessesOfPairs assignments
  | .delete _ _ => []
  | .returning columns _ => Expr.accessesOfColumns columns
  | .raw _ => []
def Clause.accessesOf : List Clause → List Access
  | [] => []
  | c :: rest => c.accesses ++ Clause.accessesOf rest
def Clause.accessesOfBranches : List (List Clause) → List Access
  | [] => []
  | b :: rest => Clause.accessesOf b ++ Clause.accessesOfBranches rest
end

example : (Clause.set [(.propertyOf "film" "title", .param "param0")]).accesses =
    [⟨true, some "film", "title"⟩] := by
  cbv

section Expressions

variable {ok : Access → Prop}

/-- All that the expression accesses is as asked. -/
def Expr.Only (ok : Access → Prop) (e : Expr) : Prop := ∀ x ∈ e.accesses, ok x

theorem only_of_accessless {e : Expr} (h : e.accesses = []) : e.Only ok := by
  intro x hx
  rw [h] at hx
  exact absurd hx List.not_mem_nil

theorem onlyList {es : List Expr} :
    (∀ x ∈ Expr.accessesOf es, ok x) ↔ ∀ e ∈ es, e.Only ok := by
  induction es with
  | nil => simp [Expr.accessesOf]
  | cons e rest ih => simp [Expr.accessesOf, or_imp, forall_and, ih, Expr.Only]

theorem onlyOption {e : Option Expr} :
    (∀ x ∈ Expr.accessesOfOption e, ok x) ↔ ∀ p ∈ e, p.Only ok := by
  cases e <;> simp [Expr.accessesOfOption, Expr.Only]

theorem onlyEntries {entries : List (String × Expr)} :
    (∀ x ∈ Expr.accessesOfEntries entries, ok x) ↔ ∀ p ∈ entries, p.2.Only ok := by
  induction entries with
  | nil => simp [Expr.accessesOfEntries]
  | cons p rest ih => simp [Expr.accessesOfEntries, or_imp, forall_and, ih, Expr.Only]

/-- What an entry of a projection of a variable accesses. -/
def MapItem.Only (ok : Access → Prop) (name : String) : MapItem Expr → Prop
  | .own key => ok ⟨false, some name, key⟩
  | .entry _ e => e.Only ok

theorem onlyProjection {name : String} {items : List (MapItem Expr)} :
    (∀ x ∈ Expr.accessesOfProjection name items, ok x) ↔ ∀ item ∈ items, item.Only ok name := by
  induction items with
  | nil => simp [Expr.accessesOfProjection]
  | cons item rest ih =>
    cases item <;>
      simp [Expr.accessesOfProjection, or_imp, forall_and, ih, MapItem.Only, Expr.Only]

theorem onlyColumns {columns : List (Column Expr)} :
    (∀ x ∈ Expr.accessesOfColumns columns, ok x) ↔ ∀ c ∈ columns, c.expression.Only ok := by
  induction columns with
  | nil => simp [Expr.accessesOfColumns]
  | cons c rest ih => simp [Expr.accessesOfColumns, or_imp, forall_and, ih, Expr.Only]

theorem onlyOrder {order : List (OrderKey Expr)} :
    (∀ x ∈ Expr.accessesOfOrder order, ok x) ↔ ∀ key ∈ order, key.expression.Only ok := by
  induction order with
  | nil => simp [Expr.accessesOfOrder]
  | cons key rest ih => simp [Expr.accessesOfOrder, or_imp, forall_and, ih, Expr.Only]

@[simp] theorem only_var (name : String) : (Expr.var name).Only ok := only_of_accessless rfl

@[simp] theorem only_param (name : String) : (Expr.param name).Only ok := only_of_accessless rfl

@[simp] theorem only_literal (value : Literal) : (Expr.literal value).Only ok :=
  only_of_accessless rfl

@[simp] theorem only_star : Expr.star.Only ok := only_of_accessless rfl

@[simp] theorem only_hasLabels (name : String) (labels : List String) :
    (Expr.hasLabels name labels).Only ok :=
  only_of_accessless rfl

@[simp] theorem only_property {base : Expr} (key : String) :
    (Expr.property base key).Only ok ↔ ok ⟨false, base.variable?, key⟩ ∧ base.Only ok :=
  List.forall_mem_cons

@[simp] theorem only_propertyOf (name key : String) :
    (Expr.propertyOf name key).Only ok ↔ ok ⟨false, some name, key⟩ := by
  simp [Expr.propertyOf, Expr.variable?]

@[simp] theorem only_binary {left right : Expr} (op : BinaryOp) :
    (Expr.binary left op right).Only ok ↔ left.Only ok ∧ right.Only ok :=
  List.forall_mem_append

@[simp] theorem only_all {es : List Expr} : (Expr.all es).Only ok ↔ ∀ e ∈ es, e.Only ok :=
  onlyList

@[simp] theorem only_any {es : List Expr} : (Expr.any es).Only ok ↔ ∀ e ∈ es, e.Only ok :=
  onlyList

@[simp] theorem only_apply {es : List Expr} (function : String) :
    (Expr.apply function es).Only ok ↔ ∀ e ∈ es, e.Only ok :=
  onlyList

@[simp] theorem only_list {es : List Expr} : (Expr.list es).Only ok ↔ ∀ e ∈ es, e.Only ok :=
  onlyList

@[simp] theorem only_not {e : Expr} : (Expr.not e).Only ok ↔ e.Only ok := Iff.rfl

@[simp] theorem only_isNull {e : Expr} : (Expr.isNull e).Only ok ↔ e.Only ok := Iff.rfl

@[simp] theorem only_isNotNull {e : Expr} : (Expr.isNotNull e).Only ok ↔ e.Only ok := Iff.rfl

@[simp] theorem only_distinct {e : Expr} : (Expr.distinct e).Only ok ↔ e.Only ok := Iff.rfl

@[simp] theorem only_map {entries : List (String × Expr)} :
    (Expr.map entries).Only ok ↔ ∀ p ∈ entries, p.2.Only ok :=
  onlyEntries

@[simp] theorem only_projection {items : List (MapItem Expr)} (name : String) :
    (Expr.projection name items).Only ok ↔ ∀ item ∈ items, item.Only ok name :=
  onlyProjection

@[simp] theorem only_choice {c t o : Expr} :
    (Expr.choice c t o).Only ok ↔ (c.Only ok ∧ t.Only ok) ∧ o.Only ok :=
  List.forall_mem_append.trans (and_congr_left' List.forall_mem_append)

@[simp] theorem only_comprehension {source body : Expr} (name : String) :
    (Expr.comprehension name source body).Only ok ↔ source.Only ok ∧ body.Only ok :=
  List.forall_mem_append

theorem only_partwise : Partwise (Expr.Only ok) where
  all _ := only_all
  any _ := only_any
  bool _ := only_literal _

end Expressions

section Clauses

variable {ok : Access → Prop}

/-- All that the clauses access is as asked. -/
def AllOnly (ok : Access → Prop) (cs : List Clause) : Prop := ∀ x ∈ Clause.accessesOf cs, ok x

def Clause.Only (ok : Access → Prop) (c : Clause) : Prop := ∀ x ∈ c.accesses, ok x

@[simp] theorem allOnly_nil : AllOnly ok [] := by simp [AllOnly, Clause.accessesOf]

@[simp] theorem allOnly_cons {c : Clause} {cs : List Clause} :
    AllOnly ok (c :: cs) ↔ c.Only ok ∧ AllOnly ok cs :=
  List.forall_mem_append

@[simp] theorem allOnly_append {cs cs' : List Clause} :
    AllOnly ok (cs ++ cs') ↔ AllOnly ok cs ∧ AllOnly ok cs' := by
  induction cs with
  | nil => simp
  | cons c rest ih => simp [ih, and_assoc]

theorem allOnly_iff {cs : List Clause} : AllOnly ok cs ↔ ∀ c ∈ cs, c.Only ok := by
  induction cs with
  | nil => simp
  | cons c rest ih => rw [allOnly_cons, List.forall_mem_cons, ih]

@[simp] theorem only_existsIn {body : List Clause} :
    (Expr.existsIn body).Only ok ↔ AllOnly ok body :=
  Iff.rfl

@[simp] theorem only_countIn {body : List Clause} :
    (Expr.countIn body).Only ok ↔ AllOnly ok body :=
  Iff.rfl

@[simp] theorem only_find {predicate : Option Expr} (pattern : Pattern) :
    (Clause.find pattern predicate).Only ok ↔ ∀ p ∈ predicate, p.Only ok :=
  onlyOption

@[simp] theorem only_carry {columns : List (Column Expr)} {order : List (OrderKey Expr)}
    {skip limit predicate : Option Expr} (isDistinct : Bool) :
    (Clause.carry columns isDistinct order skip limit predicate).Only ok ↔
      (∀ c ∈ columns, c.expression.Only ok) ∧ (∀ key ∈ order, key.expression.Only ok) ∧
        (∀ p ∈ skip, p.Only ok) ∧ (∀ p ∈ limit, p.Only ok) ∧ ∀ p ∈ predicate, p.Only ok := by
  simp only [← onlyColumns, ← onlyOrder, ← onlyOption]
  simp only [Clause.Only, Clause.accesses, List.forall_mem_append, and_assoc]

@[simp] theorem only_carryOnly {columns : List (Column Expr)} :
    (Clause.carryOnly columns).Only ok ↔ ∀ c ∈ columns, c.expression.Only ok := by
  simp [Clause.carryOnly]

@[simp] theorem only_carryAll : Clause.carryAll.Only ok := by
  simp [Clause.carryAll, Column.star]

@[simp] theorem only_keep {e : Expr} : (Clause.keep e).Only ok ↔ e.Only ok := by
  simp [Clause.keep, Column.star]

@[simp] theorem only_window {order : List (OrderKey Expr)} {skip limit : Option Expr} :
    (Clause.window order skip limit).Only ok ↔
      (∀ key ∈ order, key.expression.Only ok) ∧ (∀ p ∈ skip, p.Only ok) ∧
        ∀ p ∈ limit, p.Only ok := by
  simp [Clause.window, Column.star]

@[simp] theorem only_unwind {e : Expr} (name : String) :
    (Clause.unwind e name).Only ok ↔ e.Only ok :=
  Iff.rfl

@[simp] theorem only_call {body : List Clause} (imports : List String) :
    (Clause.call imports body).Only ok ↔ AllOnly ok body :=
  Iff.rfl

@[simp] theorem only_union {branches : List (List Clause)} :
    (Clause.union branches).Only ok ↔ ∀ b ∈ branches, AllOnly ok b := by
  unfold Clause.Only
  rw [Clause.accesses]
  induction branches with
  | nil => simp [Clause.accessesOfBranches]
  | cons b rest ih => simp [Clause.accessesOfBranches, or_imp, forall_and, ih, AllOnly]

/-- Assignments to properties write those and access what their values do. -/
theorem only_set {pairs : List (Expr × Expr)}
    (h : ∀ p ∈ pairs, p.2.Only ok ∧
      ∃ name key, p.1 = .propertyOf name key ∧ ok ⟨true, some name, key⟩) :
    (Clause.set pairs).Only ok := by
  unfold Clause.Only
  rw [Clause.accesses]
  induction pairs with
  | nil => simp [Expr.accessesOfPairs]
  | cons p rest ih =>
    obtain ⟨⟨hvalue, name, key, htarget, hwrites⟩, hrest⟩ := List.forall_mem_cons.mp h
    obtain ⟨left, right⟩ := p
    cases htarget
    rw [Expr.accessesOfPairs]
    exact List.forall_mem_append.mpr
      ⟨List.forall_mem_cons.mpr ⟨hwrites, List.forall_mem_append.mpr ⟨only_var name, hvalue⟩⟩,
        ih hrest⟩

@[simp] theorem only_create (pattern : Pattern) : (Clause.create pattern).Only ok := by
  simp [Clause.Only, Clause.accesses]

@[simp] theorem only_merge (pattern : Pattern) : (Clause.merge pattern).Only ok := by
  simp [Clause.Only, Clause.accesses]

@[simp] theorem only_delete (detach : Bool) (names : List String) :
    (Clause.delete detach names).Only ok := by
  simp [Clause.Only, Clause.accesses]

@[simp] theorem only_raw (statement : String) : (Clause.raw statement).Only ok := by
  simp [Clause.Only, Clause.accesses]

@[simp] theorem only_giveAll {columns : List (Column Expr)} :
    (Clause.giveAll columns).Only ok ↔ ∀ c ∈ columns, c.expression.Only ok :=
  onlyColumns

@[simp] theorem only_give {e : Expr} (name : String) :
    (Clause.give e name).Only ok ↔ e.Only ok := by
  simp [Clause.give, Column.named]

@[simp] theorem allOnly_andThen {before after : List Clause} :
    AllOnly ok (Program.andThen before after) ↔ AllOnly ok before ∧ AllOnly ok after := by
  unfold Program.andThen
  split <;> simp

end Clauses

end GraphSelection.Cypher
