import GraphSelection.Cypher.Basic

/-!
Scopes of variables. The rules say which names an expression or a clause may refer to and which
names are known after a clause. A block forgets everything around it but its imports, a `WITH`
everything but its columns; a predicate with a block of its own sees what is around it. A name
that a clause brings in is new at that place, so no name is hidden by another.
-/
namespace GraphSelection.Scoping

open Cypher

abbrev Names := List String

/-- None of the names is known already. -/
def Fresh (scope added : Names) : Prop := ∀ x ∈ added, x ∉ scope

/-- The names that a match finds. A path starts at a node that is known already. -/
def found (p : Pattern) : Names :=
  match p.chain with
  | [] => p.start.name.toList
  | chain => chain.flatMap fun (edge, node) => edge.name.toList ++ node.name.toList

/-- The names that a match starts from. -/
def startedFrom (p : Pattern) : Names :=
  match p.chain with
  | [] => []
  | _ => p.start.name.toList

/-- The names that a new pattern brings in. A path is made between nodes that are known already. -/
def made (p : Pattern) : Names :=
  match p.chain with
  | [] => p.start.name.toList
  | chain => chain.flatMap fun (edge, _) => edge.name.toList

/-- The names that a new path joins. -/
def joined (p : Pattern) : Names :=
  match p.chain with
  | [] => []
  | chain => p.start.name.toList ++ chain.flatMap fun (_, node) => node.name.toList

/-- The names that columns leave; a star leaves the scope as it is. -/
def exposed (scope : Names) (columns : List (Column Expr)) : Names :=
  columns.flatMap fun c =>
    match c.expression with
    | .star => scope
    | _ => c.name?.toList

section

-- The columns that a statement of the schema returns.
variable (returns : String → Names)

mutual
/-- An expression refers to known names only. -/
inductive Refers : Names → Expr → Prop
  | var {scope : Names} {x : String} (h : x ∈ scope) : Refers scope (.var x)
  | param {scope : Names} (x : String) : Refers scope (.param x)
  | literal {scope : Names} (v : Literal) : Refers scope (.literal v)
  | star {scope : Names} : Refers scope .star
  | property {scope : Names} {e : Expr} (key : String) (h : Refers scope e) :
      Refers scope (.property e key)
  | binary {scope : Names} {l r : Expr} (op : BinaryOp) (hl : Refers scope l)
      (hr : Refers scope r) : Refers scope (.binary l op r)
  | all {scope : Names} {es : List Expr} (h : ∀ e ∈ es, Refers scope e) : Refers scope (.all es)
  | any {scope : Names} {es : List Expr} (h : ∀ e ∈ es, Refers scope e) : Refers scope (.any es)
  | not {scope : Names} {e : Expr} (h : Refers scope e) : Refers scope (.not e)
  | isNull {scope : Names} {e : Expr} (h : Refers scope e) : Refers scope (.isNull e)
  | isNotNull {scope : Names} {e : Expr} (h : Refers scope e) : Refers scope (.isNotNull e)
  | apply {scope : Names} (f : String) {es : List Expr} (h : ∀ e ∈ es, Refers scope e) :
      Refers scope (.apply f es)
  | distinct {scope : Names} {e : Expr} (h : Refers scope e) : Refers scope (.distinct e)
  | hasLabels {scope : Names} {x : String} (labels : List String) (h : x ∈ scope) :
      Refers scope (.hasLabels x labels)
  | map {scope : Names} {entries : List (String × Expr)} (h : ∀ p ∈ entries, Refers scope p.2) :
      Refers scope (.map entries)
  | projection {scope : Names} {x : String} {items : List (MapItem Expr)} (hx : x ∈ scope)
      (h : ∀ key e, MapItem.entry key e ∈ items → Refers scope e) :
      Refers scope (.projection x items)
  | list {scope : Names} {es : List Expr} (h : ∀ e ∈ es, Refers scope e) : Refers scope (.list es)
  | choice {scope : Names} {c t o : Expr} (hc : Refers scope c) (ht : Refers scope t)
      (ho : Refers scope o) : Refers scope (.choice c t o)
  | comprehension {scope : Names} {x : String} {l body : Expr} (hl : Refers scope l)
      (hb : Refers (x :: scope) body) : Refers scope (.comprehension x l body)
  | existsIn {scope after : Names} {body : List Clause} (h : Runs scope body after) :
      Refers scope (.existsIn body)
  | countIn {scope after : Names} {body : List Clause} (h : Runs scope body after) :
      Refers scope (.countIn body)
/-- A clause refers to known names only, and leaves the names in the last place. -/
inductive Step : Names → Clause → Names → Prop
  | matching {scope : Names} {p : Pattern} (isOptional : Bool) {predicate : Option Expr}
      (hstart : ∀ x ∈ startedFrom p, x ∈ scope) (hnew : Fresh scope (found p))
      (hpred : ∀ e ∈ predicate, Refers (scope ++ found p) e) :
      Step scope (.matching p isOptional predicate) (scope ++ found p)
  | carry {scope : Names} {columns : List (Column Expr)} (isDistinct : Bool)
      {order : List (OrderKey Expr)} {skip limit predicate : Option Expr}
      (hcolumns : ∀ c ∈ columns, Refers scope c.expression)
      (horder : ∀ k ∈ order, Refers (exposed scope columns) k.expression)
      (hskip : ∀ e ∈ skip, Refers (exposed scope columns) e)
      (hlimit : ∀ e ∈ limit, Refers (exposed scope columns) e)
      (hpred : ∀ e ∈ predicate, Refers (exposed scope columns) e) :
      Step scope (.carry columns isDistinct order skip limit predicate) (exposed scope columns)
  | unwind {scope : Names} {e : Expr} {x : String} (he : Refers scope e) (hnew : x ∉ scope) :
      Step scope (.unwind e x) (scope ++ [x])
  | call {scope imports columns : Names} {body : List Clause} (himports : ∀ x ∈ imports, x ∈ scope)
      (hbody : Gives imports body columns) (hnew : Fresh scope columns) :
      Step scope (.call imports body) (scope ++ columns)
  | union {scope columns : Names} {branches : List (List Clause)} (hne : branches ≠ [])
      (hbranches : ∀ b ∈ branches, Branch scope b columns) (hnew : Fresh scope columns) :
      Step scope (.call [] [.union branches]) (scope ++ columns)
  | create {scope : Names} {p : Pattern} (hjoined : ∀ x ∈ joined p, x ∈ scope)
      (hnew : Fresh scope (made p)) : Step scope (.create p) (scope ++ made p)
  | merge {scope : Names} {p : Pattern} (hjoined : ∀ x ∈ joined p, x ∈ scope)
      (hnew : Fresh scope (made p)) : Step scope (.merge p) (scope ++ made p)
  | set {scope : Names} {assignments : List (Expr × Expr)}
      (htargets : ∀ p ∈ assignments, Refers scope p.1)
      (hvalues : ∀ p ∈ assignments, Refers scope p.2) : Step scope (.set assignments) scope
  | delete {scope : Names} (detach : Bool) {names : List String} (h : ∀ x ∈ names, x ∈ scope) :
      Step scope (.delete detach names) scope
/-- Clauses one after the other. -/
inductive Runs : Names → List Clause → Names → Prop
  | nil {scope : Names} : Runs scope [] scope
  | cons {scope between after : Names} {c : Clause} {rest : List Clause}
      (hc : Step scope c between) (hrest : Runs between rest after) : Runs scope (c :: rest) after
/-- Clauses that end in the columns of a `RETURN` or of a statement. -/
inductive Gives : Names → List Clause → Names → Prop
  | returning {scope last : Names} {before : List Clause} {columns : List (Column Expr)}
      (isDistinct : Bool) (hbefore : Runs scope before last)
      (hcolumns : ∀ c ∈ columns, Refers last c.expression) :
      Gives scope (before ++ [.returning columns isDistinct]) (exposed last columns)
  | statement {scope last : Names} {before : List Clause} (text : String)
      (hbefore : Runs scope before last) : Gives scope (before ++ [.raw text]) (returns text)
/-- A branch sees nothing of what is around it, unless its first clause says so. -/
inductive Branch : Names → List Clause → Names → Prop
  | alone {scope columns : Names} {body : List Clause} (h : Gives [] body columns) :
      Branch scope body columns
  | importing {scope imports columns : Names} {body : List Clause}
      (himports : ∀ x ∈ imports, x ∈ scope) (h : Gives imports body columns) :
      Branch scope (.carryOnly (imports.map Column.var) :: body) columns
end

end

end GraphSelection.Scoping
