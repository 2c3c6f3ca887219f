/-!
Query programs as data: expressions and clauses, which contain one another, since a predicate may
hold a block of clauses and a clause holds expressions.
-/
namespace GraphSelection.Cypher

inductive Literal where
  | null
  | boolean (value : Bool)
  | integer (value : Int)
  | float (value : Float)
  | string (value : String)

inductive BinaryOp where
  | equal
  | notEqual
  | less
  | lessEqual
  | greater
  | greaterEqual
  | contains
  | startsWith
  | endsWith
  | isIn
  | plus
  deriving DecidableEq, Repr

structure NodePattern where
  name : Option String
  labels : List String := []
  deriving DecidableEq

inductive Arrow where
  | right
  | left
  | undirected
  deriving DecidableEq, Repr

structure EdgePattern where
  name : Option String
  graphType : Option String
  arrow : Arrow
  deriving DecidableEq

structure Pattern where
  start : NodePattern
  chain : List (EdgePattern × NodePattern) := []
  deriving DecidableEq

/-- An entry of a map projection: a property of the projected value, or a value under a key. -/
inductive MapItem (ε : Type) where
  | own (key : String)
  | entry (key : String) (value : ε)

/-- A projected column and the name it gets. -/
structure Column (ε : Type) where
  expression : ε
  rename : Option String

structure OrderKey (ε : Type) where
  expression : ε
  descending : Bool

mutual
inductive Expr where
  | var (name : String)
  | param (name : String)
  | literal (value : Literal)
  | property (base : Expr) (key : String)
  | binary (left : Expr) (op : BinaryOp) (right : Expr)
  | all (items : List Expr)
  | any (items : List Expr)
  | not (inner : Expr)
  | isNull (inner : Expr)
  | isNotNull (inner : Expr)
  | apply (function : String) (args : List Expr)
  | distinct (inner : Expr)
  | hasLabels (name : String) (labels : List String)
  | map (entries : List (String × Expr))
  | projection (name : String) (items : List (MapItem Expr))
  | list (items : List Expr)
  | choice (condition result otherwise : Expr)
  | comprehension (name : String) (list body : Expr)
  | existsIn (body : List Clause)
  | countIn (body : List Clause)
  | star
inductive Clause where
  | matching (pattern : Pattern) (isOptional : Bool) (predicate : Option Expr)
  /-- The columns that go on, in which order and which rows of them. -/
  | carry (columns : List (Column Expr)) (isDistinct : Bool) (order : List (OrderKey Expr))
      (skip limit predicate : Option Expr)
  | unwind (expression : Expr) (name : String)
  | call (imports : List String) (body : List Clause)
  /-- Stands alone in the body of a call. -/
  | union (branches : List (List Clause))
  | create (pattern : Pattern)
  | merge (pattern : Pattern)
  | set (assignments : List (Expr × Expr))
  | delete (detach : Bool) (names : List String)
  | returning (columns : List (Column Expr)) (isDistinct : Bool)
  /-- A statement that the schema supplies. -/
  | raw (statement : String)
end

instance : Inhabited Expr := ⟨.star⟩

instance : Inhabited Clause := ⟨.raw ""⟩

namespace Expr

def null : Expr := .literal .null

def bool (b : Bool) : Expr := .literal (.boolean b)

def int (n : Int) : Expr := .literal (.integer n)

def string (s : String) : Expr := .literal (.string s)

/-- A property of a variable. -/
def propertyOf (name key : String) : Expr := .property (.var name) key

def equals (left right : Expr) : Expr := .binary left .equal right

/-- The members of a conjunction; any other expression is its own only member. -/
def conjuncts : Expr → List Expr
  | .all items => items
  | e => [e]

def disjuncts : Expr → List Expr
  | .any items => items
  | e => [e]

/-- The conjunction of some expressions, with conjunctions among them taken apart. -/
def allOf (es : List Expr) : Option Expr :=
  match es.flatMap conjuncts with
  | [] => none
  | [e] => some e
  | flat => some (.all flat)

/-- The disjunction of some expressions, with disjunctions among them taken apart. -/
def anyOf (es : List Expr) : Option Expr :=
  match es.flatMap disjuncts with
  | [] => none
  | [e] => some e
  | flat => some (.any flat)

end Expr

namespace Column

def star : Column Expr := ⟨.star, none⟩

def var (name : String) : Column Expr := ⟨.var name, none⟩

def named (e : Expr) (name : String) : Column Expr := ⟨e, some name⟩

/-- The name under which later clauses see the column. -/
def name? (c : Column Expr) : Option String :=
  match c.rename, c.expression with
  | some name, _ => some name
  | none, .var name => some name
  | none, _ => none

end Column

namespace Clause

def find (pattern : Pattern) (predicate : Option Expr) : Clause := .matching pattern false predicate

/-- Goes on with some columns and nothing else. -/
def carryOnly (columns : List (Column Expr)) : Clause := .carry columns false [] none none none

/-- Goes on with everything. -/
def carryAll : Clause := carryOnly [Column.star]

/-- Goes on with the rows on which a predicate holds. -/
def keep (predicate : Expr) : Clause := .carry [Column.star] false [] none none (some predicate)

/-- Goes on with a window of the ordered rows. -/
def window (order : List (OrderKey Expr)) (skip limit : Option Expr) : Clause :=
  .carry [Column.star] false order skip limit none

def giveAll (columns : List (Column Expr)) : Clause := .returning columns false

def give (e : Expr) (name : String) : Clause := giveAll [Column.named e name]

/-- The columns a clause returns. -/
def returned? : Clause → Option (List (Option String))
  | .returning columns _ => some (columns.map Column.name?)
  | _ => none

end Clause

namespace NodePattern

def named (name : String) (labels : List String) : NodePattern := ⟨some name, labels⟩

/-- A node that is bound already. -/
def bound (name : String) : NodePattern := ⟨some name, []⟩

end NodePattern

def Pattern.node (n : NodePattern) : Pattern := ⟨n, []⟩

def Pattern.step (start : NodePattern) (edge : EdgePattern) (stop : NodePattern) : Pattern :=
  ⟨start, [(edge, stop)]⟩

end GraphSelection.Cypher
