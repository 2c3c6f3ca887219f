import GraphSelection.Program.Pattern
import GraphSelection.Proofs.Partwise
import Mathlib.Data.List.Chain

/-!
Well-formed programs. The items of a program are the parameters it mentions and its lists of
clauses, at every depth: bodies of calls, branches of unions and blocks inside expressions. A policy
says which parameters are known, which statements may stand in a program and whether it may write; a
list is well formed for its place when its `RETURN` and its unions stand where they may and no
reading directly follows a writing.
-/
namespace GraphSelection.Cypher

/-- Where a list of clauses stands. -/
inductive Place where
  | program
  | call (imports : List String)
  /-- A branch of a union. -/
  | branch
  /-- A block inside an expression. -/
  | block

inductive Item where
  | param (name : String)
  | list (place : Place) (clauses : List Clause)

mutual
/-- The items of an expression, also those inside its blocks. -/
def Expr.items : Expr → List Item
  | .var _ => []
  | .param name => [.param name]
  | .literal _ => []
  | .property base _ => base.items
  | .binary left _ right => left.items ++ right.items
  | .all items => Expr.itemsOf items
  | .any items => Expr.itemsOf items
  | .not inner => inner.items
  | .isNull inner => inner.items
  | .isNotNull inner => inner.items
  | .apply _ args => Expr.itemsOf args
  | .distinct inner => inner.items
  | .hasLabels _ _ => []
  | .map entries => Expr.itemsOfEntries entries
  | .projection _ items => Expr.itemsOfProjection items
  | .list items => Expr.itemsOf items
  | .choice condition result otherwise => condition.items ++ result.items ++ otherwise.items
  | .comprehension _ source body => source.items ++ body.items
  | .existsIn body => .list .block body :: Clause.itemsOf body
  | .countIn body => .list .block body :: Clause.itemsOf body
  | .star => []
def Expr.itemsOf : List Expr → List Item
  | [] => []
  | e :: rest => e.items ++ Expr.itemsOf rest
def Expr.itemsOfOption : Option Expr → List Item
  | none => []
  | some e => e.items
def Expr.itemsOfEntries : List (String × Expr) → List Item
  | [] => []
  | (_, e) :: rest => e.items ++ Expr.itemsOfEntries rest
def Expr.itemsOfProjection : List (MapItem Expr) → List Item
  | [] => []
  | .own _ :: rest => Expr.itemsOfProjection rest
  | .entry _ e :: rest => e.items ++ Expr.itemsOfProjection rest
def Expr.itemsOfColumns : List (Column Expr) → List Item
  | [] => []
  | ⟨e, _⟩ :: rest => e.items ++ Expr.itemsOfColumns rest
def Expr.itemsOfOrder : List (OrderKey Expr) → List Item
  | [] => []
  | ⟨e, _⟩ :: rest => e.items ++ Expr.itemsOfOrder rest
def Expr.itemsOfPairs : List (Expr × Expr) → List Item
  | [] => []
  | (left, right) :: rest => left.items ++ right.items ++ Expr.itemsOfPairs rest
def Clause.items : Clause → List Item
  | .matching _ _ predicate => Expr.itemsOfOption predicate
  | .carry columns _ order skip limit predicate =>
      Expr.itemsOfColumns columns ++ Expr.itemsOfOrder order ++ Expr.itemsOfOption skip ++
        Expr.itemsOfOption limit ++ Expr.itemsOfOption predicate
  | .unwind e _ => e.items
  | .call imports body => .list (.call imports) body :: Clause.itemsOf body
  | .union branches => Clause.itemsOfBranches branches
  | .create _ => []
  | .merge _ => []
  | .set assignments => Expr.itemsOfPairs assignments
  | .delete _ _ => []
  | .returning columns _ => Expr.itemsOfColumns columns
  | .raw _ => []
def Clause.itemsOf : List Clause → List Item
  | [] => []
  | c :: rest => c.items ++ Clause.itemsOf rest
def Clause.itemsOfBranches : List (List Clause) → List Item
  | [] => []
  | b :: rest => .list .branch b :: Clause.itemsOf b ++ Clause.itemsOfBranches rest
end

/-- What a program may be made of. -/
structure Policy where
  params : String → Prop
  statements : String → Prop
  writes : Bool

def Clause.isReturning : Clause → Bool
  | .returning _ _ => true
  | _ => false

/-- The branch ends in a `RETURN` of columns with these names. -/
def EndsInColumns (names : List (Option String)) (branch : List Clause) : Prop :=
  ∃ columns isDistinct, branch.getLast? = some (.returning columns isDistinct) ∧
    columns.map Column.name? = names

/-- The body of a call can end here. -/
inductive Clause.Ends (policy : Policy) : Clause → Prop
  | returning (columns : List (Column Expr)) (isDistinct : Bool) :
      Clause.Ends policy (.returning columns isDistinct)
  | union (branches : List (List Clause)) : Clause.Ends policy (.union branches)
  | statement {text : String} (h : policy.statements text) : Clause.Ends policy (.raw text)

/-- `SET`, `CREATE`, `MERGE` and `DELETE`. -/
inductive Clause.IsWriting : Clause → Prop
  | set (assignments : List (Expr × Expr)) : Clause.IsWriting (.set assignments)
  | create (pattern : Pattern) : Clause.IsWriting (.create pattern)
  | merge (pattern : Pattern) : Clause.IsWriting (.merge pattern)
  | delete (detach : Bool) (names : List String) : Clause.IsWriting (.delete detach names)

/-- `CALL`, `MATCH` and `UNWIND`. -/
inductive Clause.IsReading : Clause → Prop
  | call (imports : List String) (body : List Clause) : Clause.IsReading (.call imports body)
  | matching (pattern : Pattern) (isOptional : Bool) (predicate : Option Expr) :
      Clause.IsReading (.matching pattern isOptional predicate)
  | unwind (e : Expr) (name : String) : Clause.IsReading (.unwind e name)

/-- A reading clause may not directly follow a writing one. -/
def MayFollow (before after : Clause) : Prop := ¬ (before.IsWriting ∧ after.IsReading)

structure WellFormed (policy : Policy) (place : Place) (cs : List Clause) : Prop where
  returnsLast : ∀ c ∈ cs.dropLast, c.isReturning = false
  apart : cs.IsChain MayFollow
  /-- A union is all there is in the body of a call that imports nothing. -/
  unions : ∀ branches, .union branches ∈ cs → place = .call [] ∧ cs = [.union branches] ∧
    ∃ names, ∀ b ∈ branches, EndsInColumns names b
  ends : ∀ imports, place = .call imports → ∃ c ∈ cs.getLast?, c.Ends policy
  writes : policy.writes = false → ∀ c ∈ cs, ¬ c.IsWriting

def Item.Obeys (policy : Policy) : Item → Prop
  | .param name => policy.params name
  | .list place cs => WellFormed policy place cs

def Expr.Obeys (policy : Policy) (e : Expr) : Prop := ∀ i ∈ e.items, i.Obeys policy

def Clause.Obeys (policy : Policy) (c : Clause) : Prop := ∀ i ∈ c.items, i.Obeys policy

section Items

theorem mem_itemsOf {es : List Expr} {i : Item} :
    i ∈ Expr.itemsOf es ↔ ∃ e ∈ es, i ∈ e.items := by
  induction es with
  | nil => simp [Expr.itemsOf]
  | cons e rest ih => simp [Expr.itemsOf, ih]

theorem mem_itemsOfOption {e : Option Expr} {i : Item} :
    i ∈ Expr.itemsOfOption e ↔ ∃ p ∈ e, i ∈ p.items := by
  cases e <;> simp [Expr.itemsOfOption]

theorem mem_itemsOfEntries {entries : List (String × Expr)} {i : Item} :
    i ∈ Expr.itemsOfEntries entries ↔ ∃ p ∈ entries, i ∈ p.2.items := by
  induction entries with
  | nil => simp [Expr.itemsOfEntries]
  | cons p rest ih => simp [Expr.itemsOfEntries, ih]

theorem mem_itemsOfProjection {items : List (MapItem Expr)} {i : Item} :
    i ∈ Expr.itemsOfProjection items ↔ ∃ key e, .entry key e ∈ items ∧ i ∈ e.items := by
  induction items with
  | nil => simp [Expr.itemsOfProjection]
  | cons item rest ih =>
    cases item with
    | own key => simp [Expr.itemsOfProjection, ih]
    | entry key e =>
      simp only [Expr.itemsOfProjection, List.mem_append, ih, List.mem_cons, MapItem.entry.injEq]
      constructor
      · rintro (h | ⟨key', e', hmem, h⟩)
        · exact ⟨key, e, .inl ⟨rfl, rfl⟩, h⟩
        · exact ⟨key', e', .inr hmem, h⟩
      · rintro ⟨key', e', ⟨rfl, rfl⟩ | hmem, h⟩
        · exact .inl h
        · exact .inr ⟨key', e', hmem, h⟩

theorem mem_itemsOfColumns {columns : List (Column Expr)} {i : Item} :
    i ∈ Expr.itemsOfColumns columns ↔ ∃ c ∈ columns, i ∈ c.expression.items := by
  induction columns with
  | nil => simp [Expr.itemsOfColumns]
  | cons c rest ih => simp [Expr.itemsOfColumns, ih]

theorem mem_itemsOfOrder {order : List (OrderKey Expr)} {i : Item} :
    i ∈ Expr.itemsOfOrder order ↔ ∃ key ∈ order, i ∈ key.expression.items := by
  induction order with
  | nil => simp [Expr.itemsOfOrder]
  | cons key rest ih => simp [Expr.itemsOfOrder, ih]

theorem mem_itemsOfPairs {pairs : List (Expr × Expr)} {i : Item} :
    i ∈ Expr.itemsOfPairs pairs ↔ ∃ p ∈ pairs, i ∈ p.1.items ∨ i ∈ p.2.items := by
  induction pairs with
  | nil => simp [Expr.itemsOfPairs]
  | cons p rest ih => simp [Expr.itemsOfPairs, ih, or_assoc]

theorem mem_clauseItems {cs : List Clause} {i : Item} :
    i ∈ Clause.itemsOf cs ↔ ∃ c ∈ cs, i ∈ c.items := by
  induction cs with
  | nil => simp [Clause.itemsOf]
  | cons c rest ih => simp [Clause.itemsOf, ih]

theorem mem_itemsOfBranches {branches : List (List Clause)} {i : Item} :
    i ∈ Clause.itemsOfBranches branches ↔
      ∃ b ∈ branches, i = .list .branch b ∨ ∃ c ∈ b, i ∈ c.items := by
  induction branches with
  | nil => simp [Clause.itemsOfBranches]
  | cons b rest ih => simp [Clause.itemsOfBranches, ih, mem_clauseItems, or_assoc]

end Items

section Expressions

variable {policy : Policy}

/-- The body obeys a policy as a list in its place, and so do the items inside it. -/
structure Block (policy : Policy) (place : Place) (cs : List Clause) : Prop where
  formed : WellFormed policy place cs
  inner : ∀ c ∈ cs, c.Obeys policy

theorem Block.items {place : Place} {cs : List Clause} (h : Block policy place cs) :
    ∀ i ∈ .list place cs :: Clause.itemsOf cs, i.Obeys policy := by
  intro i hi
  rcases List.mem_cons.mp hi with rfl | hi
  · exact h.formed
  · obtain ⟨c, hc, hi⟩ := mem_clauseItems.mp hi
    exact h.inner c hc i hi

theorem obeysList {es : List Expr} :
    (∀ i ∈ Expr.itemsOf es, i.Obeys policy) ↔ ∀ e ∈ es, e.Obeys policy := by
  simp only [mem_itemsOf]
  exact ⟨fun h e he i hi => h i ⟨e, he, hi⟩, fun h i ⟨e, he, hi⟩ => h e he i hi⟩

theorem obeysAppend {is js : List Item} :
    (∀ i ∈ is ++ js, i.Obeys policy) ↔
      (∀ i ∈ is, i.Obeys policy) ∧ ∀ i ∈ js, i.Obeys policy :=
  List.forall_mem_append

theorem obeys_of_itemless {e : Expr} (h : e.items = []) : e.Obeys policy := by
  intro i hi
  rw [h] at hi
  exact absurd hi List.not_mem_nil

@[simp] theorem obeys_var (name : String) : (Expr.var name).Obeys policy := obeys_of_itemless rfl

@[simp] theorem obeys_literal (value : Literal) : (Expr.literal value).Obeys policy :=
  obeys_of_itemless rfl

@[simp] theorem obeys_star : Expr.star.Obeys policy := obeys_of_itemless rfl

@[simp] theorem obeys_hasLabels (name : String) (labels : List String) :
    (Expr.hasLabels name labels).Obeys policy :=
  obeys_of_itemless rfl

@[simp] theorem obeys_param (name : String) :
    (Expr.param name).Obeys policy ↔ policy.params name :=
  ⟨fun h => h (.param name) List.mem_cons_self, fun h => List.forall_mem_singleton.mpr h⟩

@[simp] theorem obeys_property {base : Expr} (key : String) :
    (Expr.property base key).Obeys policy ↔ base.Obeys policy :=
  Iff.rfl

@[simp] theorem obeys_binary {left right : Expr} (op : BinaryOp) :
    (Expr.binary left op right).Obeys policy ↔ left.Obeys policy ∧ right.Obeys policy :=
  obeysAppend

@[simp] theorem obeys_all {es : List Expr} :
    (Expr.all es).Obeys policy ↔ ∀ e ∈ es, e.Obeys policy :=
  obeysList

@[simp] theorem obeys_any {es : List Expr} :
    (Expr.any es).Obeys policy ↔ ∀ e ∈ es, e.Obeys policy :=
  obeysList

@[simp] theorem obeys_apply {es : List Expr} (function : String) :
    (Expr.apply function es).Obeys policy ↔ ∀ e ∈ es, e.Obeys policy :=
  obeysList

@[simp] theorem obeys_list {es : List Expr} :
    (Expr.list es).Obeys policy ↔ ∀ e ∈ es, e.Obeys policy :=
  obeysList

@[simp] theorem obeys_not {e : Expr} : (Expr.not e).Obeys policy ↔ e.Obeys policy := Iff.rfl

@[simp] theorem obeys_isNull {e : Expr} : (Expr.isNull e).Obeys policy ↔ e.Obeys policy := Iff.rfl

@[simp] theorem obeys_isNotNull {e : Expr} :
    (Expr.isNotNull e).Obeys policy ↔ e.Obeys policy :=
  Iff.rfl

@[simp] theorem obeys_distinct {e : Expr} : (Expr.distinct e).Obeys policy ↔ e.Obeys policy :=
  Iff.rfl

@[simp] theorem obeys_map {entries : List (String × Expr)} :
    (Expr.map entries).Obeys policy ↔ ∀ p ∈ entries, p.2.Obeys policy := by
  change (∀ i ∈ Expr.itemsOfEntries entries, _) ↔ _
  simp only [mem_itemsOfEntries]
  exact ⟨fun h p hp i hi => h i ⟨p, hp, hi⟩, fun h i ⟨p, hp, hi⟩ => h p hp i hi⟩

@[simp] theorem obeys_projection {items : List (MapItem Expr)} (name : String) :
    (Expr.projection name items).Obeys policy ↔
      ∀ key e, .entry key e ∈ items → e.Obeys policy := by
  change (∀ i ∈ Expr.itemsOfProjection items, _) ↔ _
  simp only [mem_itemsOfProjection]
  exact ⟨fun h key e he i hi => h i ⟨key, e, he, hi⟩,
    fun h i ⟨key, e, he, hi⟩ => h key e he i hi⟩

@[simp] theorem obeys_choice {c t o : Expr} :
    (Expr.choice c t o).Obeys policy ↔ (c.Obeys policy ∧ t.Obeys policy) ∧ o.Obeys policy :=
  obeysAppend.trans (and_congr_left' obeysAppend)

@[simp] theorem obeys_comprehension {source body : Expr} (name : String) :
    (Expr.comprehension name source body).Obeys policy ↔
      source.Obeys policy ∧ body.Obeys policy :=
  obeysAppend

theorem Block.existsIn {cs : List Clause} (h : Block policy .block cs) :
    (Expr.existsIn cs).Obeys policy :=
  h.items

theorem Block.countIn {cs : List Clause} (h : Block policy .block cs) :
    (Expr.countIn cs).Obeys policy :=
  h.items

theorem obeys_partwise : Partwise (Expr.Obeys policy) where
  all _ := obeys_all
  any _ := obeys_any
  bool _ := obeys_literal _

end Expressions

section Clauses

variable {policy : Policy}

theorem obeysColumns {columns : List (Column Expr)} :
    (∀ i ∈ Expr.itemsOfColumns columns, i.Obeys policy) ↔
      ∀ c ∈ columns, c.expression.Obeys policy := by
  simp only [mem_itemsOfColumns]
  exact ⟨fun h c hc i hi => h i ⟨c, hc, hi⟩, fun h i ⟨c, hc, hi⟩ => h c hc i hi⟩

theorem obeysOrder {order : List (OrderKey Expr)} :
    (∀ i ∈ Expr.itemsOfOrder order, i.Obeys policy) ↔
      ∀ key ∈ order, key.expression.Obeys policy := by
  simp only [mem_itemsOfOrder]
  exact ⟨fun h key hkey i hi => h i ⟨key, hkey, hi⟩, fun h i ⟨key, hkey, hi⟩ => h key hkey i hi⟩

theorem obeysOption {e : Option Expr} :
    (∀ i ∈ Expr.itemsOfOption e, i.Obeys policy) ↔ ∀ p ∈ e, p.Obeys policy := by
  simp only [mem_itemsOfOption]
  exact ⟨fun h p hp i hi => h i ⟨p, hp, hi⟩, fun h i ⟨p, hp, hi⟩ => h p hp i hi⟩

theorem obeysPairs {pairs : List (Expr × Expr)} :
    (∀ i ∈ Expr.itemsOfPairs pairs, i.Obeys policy) ↔
      ∀ p ∈ pairs, p.1.Obeys policy ∧ p.2.Obeys policy := by
  simp only [mem_itemsOfPairs]
  constructor
  · exact fun h p hp => ⟨fun i hi => h i ⟨p, hp, .inl hi⟩, fun i hi => h i ⟨p, hp, .inr hi⟩⟩
  · rintro h i ⟨p, hp, hi | hi⟩
    · exact (h p hp).1 i hi
    · exact (h p hp).2 i hi

/-- The clause can stand anywhere in a list: it ends none. -/
def Clause.isInner : Clause → Bool
  | .returning _ _ => false
  | .union _ => false
  | .raw _ => false
  | _ => true

/-- A clause that can stand anywhere in a list and whose items obey the policy. -/
structure Clause.Open (policy : Policy) (c : Clause) : Prop where
  obeys : c.Obeys policy
  inner : c.isInner = true
  writes : policy.writes = false → Program.isWriting c = false

/-- A clause that can stand anywhere and writes nothing itself. -/
structure Clause.Still (policy : Policy) (c : Clause) : Prop where
  obeys : c.Obeys policy
  inner : c.isInner = true
  silent : Program.isWriting c = false

theorem Clause.Still.opened {c : Clause} (h : c.Still policy) : c.Open policy :=
  ⟨h.obeys, h.inner, fun _ => h.silent⟩

@[simp] theorem still_matching {predicate : Option Expr} (pattern : Pattern) (isOptional : Bool) :
    (Clause.matching pattern isOptional predicate).Still policy ↔
      ∀ p ∈ predicate, p.Obeys policy := by
  rw [← obeysOption]
  exact ⟨fun h => h.obeys, fun h => ⟨h, rfl, rfl⟩⟩

@[simp] theorem still_find {predicate : Option Expr} (pattern : Pattern) :
    (Clause.find pattern predicate).Still policy ↔ ∀ p ∈ predicate, p.Obeys policy :=
  still_matching ..

@[simp] theorem still_carry {columns : List (Column Expr)} {order : List (OrderKey Expr)}
    {skip limit predicate : Option Expr} (isDistinct : Bool) :
    (Clause.carry columns isDistinct order skip limit predicate).Still policy ↔
      (∀ c ∈ columns, c.expression.Obeys policy) ∧ (∀ key ∈ order, key.expression.Obeys policy) ∧
        (∀ p ∈ skip, p.Obeys policy) ∧ (∀ p ∈ limit, p.Obeys policy) ∧
          ∀ p ∈ predicate, p.Obeys policy := by
  simp only [← obeysColumns, ← obeysOrder, ← obeysOption]
  constructor
  · intro h
    have hobeys := h.obeys
    simpa only [Clause.Obeys, Clause.items, List.forall_mem_append, and_assoc] using hobeys
  · intro h
    refine ⟨?_, rfl, rfl⟩
    simpa only [Clause.Obeys, Clause.items, List.forall_mem_append, and_assoc] using h

@[simp] theorem still_carryOnly {columns : List (Column Expr)} :
    (Clause.carryOnly columns).Still policy ↔ ∀ c ∈ columns, c.expression.Obeys policy := by
  simp [Clause.carryOnly]

@[simp] theorem still_carryAll : Clause.carryAll.Still policy := by
  simp [Clause.carryAll, Column.star]

@[simp] theorem still_keep {e : Expr} : (Clause.keep e).Still policy ↔ e.Obeys policy := by
  simp [Clause.keep, Column.star]

@[simp] theorem still_window {order : List (OrderKey Expr)} {skip limit : Option Expr} :
    (Clause.window order skip limit).Still policy ↔
      (∀ key ∈ order, key.expression.Obeys policy) ∧ (∀ p ∈ skip, p.Obeys policy) ∧
        ∀ p ∈ limit, p.Obeys policy := by
  simp [Clause.window, Column.star]

@[simp] theorem still_unwind {e : Expr} (name : String) :
    (Clause.unwind e name).Still policy ↔ e.Obeys policy :=
  ⟨fun h => h.obeys, fun h => ⟨h, rfl, rfl⟩⟩

@[simp] theorem still_call {body : List Clause} (imports : List String) :
    (Clause.call imports body).Still policy ↔ Block policy (.call imports) body := by
  constructor
  · intro h
    refine ⟨h.obeys _ List.mem_cons_self, fun c hc i hi => h.obeys i ?_⟩
    exact List.mem_cons_of_mem _ (mem_clauseItems.mpr ⟨c, hc, hi⟩)
  · exact fun h => ⟨h.items, rfl, rfl⟩

theorem isWriting_iff {c : Clause} : Program.isWriting c = true ↔ c.IsWriting := by
  constructor
  · intro h
    cases c <;> first | constructor | cases h
  · intro h
    cases h <;> rfl

theorem isReading_iff {c : Clause} : Program.isReading c = true ↔ c.IsReading := by
  constructor
  · intro h
    cases c <;> first | constructor | cases h
  · intro h
    cases h <;> rfl

theorem not_isWriting {c : Clause} (h : Program.isWriting c = false) : ¬ c.IsWriting :=
  mt isWriting_iff.mpr (Bool.not_eq_true _ ▸ h)

theorem isReturning_of_inner {c : Clause} (h : c.isInner = true) : c.isReturning = false := by
  cases c <;> first | rfl | cases h

/-- A list that can go on: nothing in it ends a list. -/
structure OpenList (policy : Policy) (cs : List Clause) : Prop where
  clauses : ∀ c ∈ cs, c.Open policy
  apart : cs.IsChain MayFollow

/-- A list that can go on in any way, since nothing in it writes. -/
def StillList (policy : Policy) (cs : List Clause) : Prop := ∀ c ∈ cs, c.Still policy

@[simp] theorem stillList_nil : StillList policy [] := by simp [StillList]

@[simp] theorem stillList_cons {c : Clause} {cs : List Clause} :
    StillList policy (c :: cs) ↔ c.Still policy ∧ StillList policy cs := by
  simp [StillList]

@[simp] theorem stillList_append {cs cs' : List Clause} :
    StillList policy (cs ++ cs') ↔ StillList policy cs ∧ StillList policy cs' := by
  simp [StillList, or_imp, forall_and]

theorem openList_nil : OpenList policy [] := ⟨by simp, by simp⟩

/-- What follows a list that writes nothing at its end follows it well. -/
theorem OpenList.append {cs cs' : List Clause} (h : OpenList policy cs) (h' : OpenList policy cs')
    (hapart : ∀ c ∈ cs.getLast?, ∀ c' ∈ cs'.head?, MayFollow c c') :
    OpenList policy (cs ++ cs') where
  clauses c hc := by
    rcases List.mem_append.mp hc with hc | hc
    · exact h.clauses c hc
    · exact h'.clauses c hc
  apart := List.isChain_append.mpr ⟨h.apart, h'.apart, hapart⟩

theorem mayFollow_still {c : Clause} (h : Program.isWriting c = false) (c' : Clause) :
    MayFollow c c' :=
  fun hboth => not_isWriting h hboth.1

theorem mayFollow_silent {c' : Clause} (h : Program.isReading c' = false) (c : Clause) :
    MayFollow c c' := by
  simp [MayFollow, ← isReading_iff, h]

theorem StillList.opened {cs : List Clause} (h : StillList policy cs) : OpenList policy cs where
  clauses c hc := (h c hc).opened
  apart := by
    rw [List.isChain_iff_forall_rel_of_append_cons_cons]
    rintro a b before after rfl
    exact mayFollow_still (h a (by simp)).silent b

theorem StillList.before {cs cs' : List Clause} (h : StillList policy cs)
    (h' : OpenList policy cs') : OpenList policy (cs ++ cs') :=
  h.opened.append h' fun c hc c' _ =>
    mayFollow_still (h c (List.mem_of_mem_getLast? hc)).silent c'

/-- A list may be ended by a `RETURN`. -/
theorem OpenList.giveAll {cs : List Clause} (h : OpenList policy cs) {columns : List (Column Expr)}
    (hcolumns : ∀ c ∈ columns, c.expression.Obeys policy) (place : Place) :
    Block policy place (cs ++ [.giveAll columns]) where
  formed := by
    have hend : ∀ c ∈ cs, c.isReturning = false := fun c hc =>
      isReturning_of_inner (h.clauses c hc).inner
    refine ⟨?_, ?_, fun branches hunion => ?_, fun _ _ => ?_, fun hwrites c hc => ?_⟩
    · simpa using hend
    · exact List.isChain_append.mpr ⟨h.apart, by simp, fun c _ c' hc' => by
        simp only [List.head?_cons, Option.mem_some_iff] at hc'
        exact hc' ▸ mayFollow_silent rfl c⟩
    · rcases List.mem_append.mp hunion with hunion | hunion
      · cases (h.clauses _ hunion).inner
      · simp [Clause.giveAll] at hunion
    · exact ⟨.giveAll columns, by simp, .returning ..⟩
    · rcases List.mem_append.mp hc with hc | hc
      · exact not_isWriting ((h.clauses c hc).writes hwrites)
      · rw [List.mem_singleton] at hc
        exact hc ▸ nofun
  inner c hc := by
    rcases List.mem_append.mp hc with hc | hc
    · exact (h.clauses c hc).obeys
    · rw [List.mem_singleton] at hc
      exact hc ▸ obeysColumns.mpr hcolumns

theorem OpenList.give {cs : List Clause} (h : OpenList policy cs) {e : Expr}
    (he : e.Obeys policy) (name : String) (place : Place) :
    Block policy place (cs ++ [.give e name]) :=
  h.giveAll (by simpa [Column.named] using he) place

/-- A block that ends in the `RETURN` of one column of this name. -/
structure Answer (policy : Policy) (place : Place) (name : String) (cs : List Clause) : Prop where
  block : Block policy place cs
  column : ∃ e, cs.getLast? = some (.give e name)

theorem OpenList.answer {cs : List Clause} (h : OpenList policy cs) {e : Expr}
    (he : e.Obeys policy) (name : String) (place : Place) :
    Answer policy place name (cs ++ [.give e name]) :=
  ⟨h.give he name place, e, by simp⟩

/-- A list without an end can stand everywhere but in a call. -/
theorem OpenList.endless {cs : List Clause} (h : OpenList policy cs) {place : Place}
    (hplace : ∀ imports, place ≠ .call imports) : Block policy place cs where
  formed := by
    refine ⟨fun c hc => ?_, h.apart, fun branches hunion => ?_,
      fun imports heq => absurd heq (hplace imports),
      fun hwrites c hc => not_isWriting ((h.clauses c hc).writes hwrites)⟩
    · exact isReturning_of_inner (h.clauses c (List.dropLast_subset cs hc)).inner
    · cases (h.clauses _ hunion).inner
  inner c hc := (h.clauses c hc).obeys

theorem OpenList.block {cs : List Clause} (h : OpenList policy cs) : Block policy .block cs :=
  h.endless nofun

/-- The call of a statement that may stand in a program. -/
theorem still_statement {text : String} (h : policy.statements text) (imports : List String)
    {columns : List (Column Expr)} (hcolumns : ∀ c ∈ columns, c.expression.Obeys policy) :
    (Clause.call imports [.carryOnly columns, .raw text]).Still policy := by
  have hfirst : (Clause.carryOnly columns).Still policy := still_carryOnly.mpr hcolumns
  refine (still_call imports).mpr ⟨⟨?_, ?_, fun branches hunion => ?_, fun _ _ => ?_,
    fun _ c hc => ?_⟩, fun c hc => ?_⟩
  · simp [Clause.carryOnly, Clause.isReturning]
  · simp [mayFollow_still hfirst.silent]
  · simp [Clause.carryOnly] at hunion
  · exact ⟨.raw text, by simp, .statement h⟩
  · simp only [List.mem_cons, List.not_mem_nil, or_false] at hc
    rcases hc with rfl | rfl <;> exact nofun
  · simp only [List.mem_cons, List.not_mem_nil, or_false] at hc
    rcases hc with rfl | rfl
    · exact hfirst.obeys
    · simp [Clause.Obeys, Clause.items]

/-- Branches with the same columns, merged in a call of their own. -/
theorem still_union {branches : List (List Clause)} {names : List (Option String)}
    (h : ∀ b ∈ branches, Block policy .branch b) (hnames : ∀ b ∈ branches, EndsInColumns names b) :
    (Clause.call [] [.union branches]).Still policy := by
  refine (still_call []).mpr ⟨⟨by simp, by simp, fun branches' hunion => ?_, fun _ _ => ?_,
    fun _ c hc => ?_⟩, fun c hc i hi => ?_⟩
  · rw [List.mem_singleton] at hunion
    cases hunion
    exact ⟨rfl, rfl, names, hnames⟩
  · exact ⟨.union branches, by simp, .union _⟩
  · rw [List.mem_singleton] at hc
    exact hc ▸ nofun
  · rw [List.mem_singleton] at hc
    subst hc
    obtain ⟨b, hb, rfl | ⟨c, hc, hi⟩⟩ := mem_itemsOfBranches.mp hi
    · exact (h b hb).formed
    · exact (h b hb).inner c hc i hi

end Clauses

section Changes

variable {policy : Policy}

/-- A new `WITH` keeps reading and writing apart. -/
theorem OpenList.andThen {before after : List Clause} (h : OpenList policy before)
    (h' : OpenList policy after) : OpenList policy (Program.andThen before after) := by
  unfold Program.andThen
  split
  · have hcarry : StillList policy [.carryAll] := by simp
    refine h.append (hcarry.before h') fun c _ c' hc' => ?_
    simp only [List.head?_cons, Option.mem_some_iff] at hc'
    exact hc' ▸ mayFollow_silent rfl c
  · rename_i hjoin
    refine h.append h' fun c hc c' hc' => ?_
    rw [Option.mem_def] at hc hc'
    simpa [hc, hc', MayFollow, ← isWriting_iff, ← isReading_iff] using hjoin

/-- Writing that may follow anything. -/
def WriteList (policy : Policy) (cs : List Clause) : Prop :=
  ∀ c ∈ cs, c.Open policy ∧ Program.isReading c = false

theorem writeList_nil : WriteList policy [] := by simp [WriteList]

theorem writeList_cons {c : Clause} {cs : List Clause} (hc : c.Open policy)
    (hsilent : Program.isReading c = false) (h : WriteList policy cs) :
    WriteList policy (c :: cs) :=
  List.forall_mem_cons.mpr ⟨⟨hc, hsilent⟩, h⟩

theorem WriteList.append {cs cs' : List Clause} (h : WriteList policy cs)
    (h' : WriteList policy cs') : WriteList policy (cs ++ cs') :=
  List.forall_mem_append.mpr ⟨h, h'⟩

theorem WriteList.opened {cs : List Clause} (h : WriteList policy cs) : OpenList policy cs where
  clauses c hc := (h c hc).1
  apart := by
    rw [List.isChain_iff_forall_rel_of_append_cons_cons]
    rintro a b before after rfl
    exact mayFollow_silent (h b (by simp)).2 a

theorem OpenList.write {cs cs' : List Clause} (h : OpenList policy cs)
    (h' : WriteList policy cs') : OpenList policy (cs ++ cs') :=
  h.append h'.opened fun c _ c' hc' => mayFollow_silent (h' c' (List.mem_of_mem_head? hc')).2 c

variable (hwrites : policy.writes = true)

include hwrites

theorem open_writing {c : Clause} (hobeys : c.Obeys policy) (hinner : c.isInner = true) :
    c.Open policy :=
  ⟨hobeys, hinner, fun h => absurd (hwrites.symm.trans h) nofun⟩

theorem open_create (pattern : Pattern) : (Clause.create pattern).Open policy :=
  open_writing hwrites (by simp [Clause.Obeys, Clause.items]) rfl

theorem open_merge (pattern : Pattern) : (Clause.merge pattern).Open policy :=
  open_writing hwrites (by simp [Clause.Obeys, Clause.items]) rfl

theorem writeList_delete (detach : Bool) (names : List String) :
    WriteList policy [.delete detach names] :=
  writeList_cons (open_writing hwrites (by simp [Clause.Obeys, Clause.items]) rfl) rfl
    writeList_nil

end Changes

end GraphSelection.Cypher
