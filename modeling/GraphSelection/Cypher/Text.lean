import GraphSelection.Cypher.Basic
import GraphSelection.Decimal.Layout
import GraphSelection.Text.Lines
import GraphSelection.Text.Token

/-!
The text of a query program. Whatever a request can influence enters it as a parameter or through
a name token, and blocks are indented by four spaces.
-/
namespace GraphSelection.Cypher

open GraphSelection

def commas (texts : List String) : String := String.intercalate ", " texts

def inBraces (text : String) : String := "\x7b " ++ text ++ " \x7d"

def emptyBraces : String := "\x7b\x7d"

/-- A keyword with an indented block. -/
def blockText (keyword body : String) : String :=
  keyword ++ " \x7b\n" ++ Text.indent body ++ "\n\x7d"

def Literal.text : Literal → String
  | .null => "NULL"
  | .boolean b => if b then "true" else "false"
  | .integer n => toString n
  | .float x => Decimal.queryNumber.text x
  | .string s => Text.literal s

def BinaryOp.text : BinaryOp → String
  | .equal => "="
  | .notEqual => "<>"
  | .less => "<"
  | .lessEqual => "<="
  | .greater => ">"
  | .greaterEqual => ">="
  | .contains => "CONTAINS"
  | .startsWith => "STARTS WITH"
  | .endsWith => "ENDS WITH"
  | .isIn => "IN"
  | .plus => "+"

def labelsText (labels : List String) : String :=
  String.join (labels.map fun l => ":" ++ Text.name l)

def NodePattern.text (n : NodePattern) : String :=
  "(" ++ n.name.getD "" ++ labelsText n.labels ++ ")"

def EdgePattern.text (e : EdgePattern) : String :=
  let inner := e.name.getD "" ++ (e.graphType.map fun t => ":" ++ Text.name t).getD ""
  match e.arrow with
  | .right => "-[" ++ inner ++ "]->"
  | .left => "<-[" ++ inner ++ "]-"
  | .undirected => "-[" ++ inner ++ "]-"

def Pattern.text (p : Pattern) : String :=
  p.start.text ++ String.join (p.chain.map fun (edge, node) => edge.text ++ node.text)

/-- One operand stands for itself, more of them in parentheses; none of them is true. -/
def junctionText (mark : String) : List String → String
  | [] => "true"
  | [single] => single
  | texts => "(" ++ String.intercalate mark texts ++ ")"

/-- A base on which a property may be written without parentheses. -/
def Expr.isSimpleBase : Expr → Bool
  | .var _ | .param _ | .property _ _ | .apply _ _ => true
  | _ => false

/-- A junction that writes its own parentheses. -/
def Expr.isGrouped : Expr → Bool
  | .all items => 1 < items.length
  | .any items => 1 < items.length
  | _ => false

def Expr.isVar (name : String) : Expr → Bool
  | .var n => n == name
  | _ => false

def distinctText (isDistinct : Bool) : String := if isDistinct then "DISTINCT " else ""

mutual
def Expr.text : Expr → String
  | .var name => name
  | .param name => "$" ++ name
  | .literal value => value.text
  | .property base key =>
      (if base.isSimpleBase then base.text else "(" ++ base.text ++ ")") ++ "." ++ Text.name key
  | .binary left op right => left.text ++ " " ++ op.text ++ " " ++ right.text
  | .all items => junctionText " AND " (Expr.texts items)
  | .any items => junctionText " OR " (Expr.texts items)
  | .not inner => if inner.isGrouped then "NOT " ++ inner.text else "NOT (" ++ inner.text ++ ")"
  | .isNull inner => inner.text ++ " IS NULL"
  | .isNotNull inner => inner.text ++ " IS NOT NULL"
  | .apply function args => function ++ "(" ++ commas (Expr.texts args) ++ ")"
  | .distinct inner => "DISTINCT " ++ inner.text
  | .hasLabels name labels => name ++ ":" ++ String.intercalate ":" (labels.map Text.name)
  | .map entries =>
      if entries.isEmpty then emptyBraces else inBraces (commas (Expr.entryTexts entries))
  | .projection name items =>
      name ++ " " ++
        if items.isEmpty then emptyBraces else inBraces (commas (Expr.itemTexts items))
  | .list items => "[" ++ commas (Expr.texts items) ++ "]"
  | .choice condition result otherwise =>
      "CASE WHEN " ++ condition.text ++ " THEN " ++ result.text ++ " ELSE " ++ otherwise.text ++
        " END"
  | .comprehension name list body =>
      "[" ++ name ++ " IN " ++ list.text ++ " | " ++ body.text ++ "]"
  | .existsIn body => blockText "EXISTS" (String.intercalate "\n" (Clause.texts body))
  | .countIn body => blockText "COUNT" (String.intercalate "\n" (Clause.texts body))
  | .star => "*"
def Expr.texts : List Expr → List String
  | [] => []
  | e :: rest => e.text :: Expr.texts rest
def Expr.entryTexts : List (String × Expr) → List String
  | [] => []
  | (key, e) :: rest => (Text.name key ++ ": " ++ e.text) :: Expr.entryTexts rest
def Expr.itemTexts : List (MapItem Expr) → List String
  | [] => []
  | .own key :: rest => ("." ++ Text.name key) :: Expr.itemTexts rest
  | .entry key e :: rest => (Text.name key ++ ": " ++ e.text) :: Expr.itemTexts rest
/-- An optional part of a clause, on a line of its own. -/
def Expr.lineText (keyword : String) : Option Expr → String
  | none => ""
  | some e => "\n" ++ keyword ++ " " ++ e.text
/-- A variable under its own name needs no other name. -/
def Expr.columnTexts : List (Column Expr) → List String
  | [] => []
  | ⟨e, none⟩ :: rest => e.text :: Expr.columnTexts rest
  | ⟨e, some name⟩ :: rest =>
      (if e.isVar name then e.text else e.text ++ " AS " ++ name) :: Expr.columnTexts rest
def Expr.orderTexts : List (OrderKey Expr) → List String
  | [] => []
  | ⟨e, descending⟩ :: rest =>
      (e.text ++ if descending then " DESC" else " ASC") :: Expr.orderTexts rest
def Expr.assignmentTexts : List (Expr × Expr) → List String
  | [] => []
  | (target, value) :: rest =>
      (target.text ++ " = " ++ value.text) :: Expr.assignmentTexts rest
def Clause.text : Clause → String
  | .matching pattern isOptional predicate =>
      (if isOptional then "OPTIONAL MATCH " else "MATCH ") ++ pattern.text ++
        Expr.lineText "WHERE" predicate
  | .carry columns isDistinct order skip limit predicate =>
      "WITH " ++ distinctText isDistinct ++ commas (Expr.columnTexts columns) ++
        (if order.isEmpty then "" else "\nORDER BY " ++ commas (Expr.orderTexts order)) ++
        Expr.lineText "SKIP" skip ++ Expr.lineText "LIMIT" limit ++
        Expr.lineText "WHERE" predicate
  | .unwind e name => "UNWIND " ++ e.text ++ " AS " ++ name
  | .call imports body =>
      blockText "CALL"
        ((if imports.isEmpty then "" else "WITH " ++ commas imports ++ "\n") ++
          String.intercalate "\n" (Clause.texts body))
  | .union branches => String.intercalate "\nUNION\n" (Clause.branchTexts branches)
  | .create pattern => "CREATE " ++ pattern.text
  | .merge pattern => "MERGE " ++ pattern.text
  | .set assignments => "SET " ++ commas (Expr.assignmentTexts assignments)
  | .delete detach names => (if detach then "DETACH DELETE " else "DELETE ") ++ commas names
  | .returning columns isDistinct =>
      "RETURN " ++ distinctText isDistinct ++ commas (Expr.columnTexts columns)
  | .raw statement => Text.trim statement
def Clause.texts : List Clause → List String
  | [] => []
  | c :: rest => c.text :: Clause.texts rest
def Clause.branchTexts : List (List Clause) → List String
  | [] => []
  | branch :: rest => String.intercalate "\n" (Clause.texts branch) :: Clause.branchTexts rest
end

/-- The text of a list of clauses. -/
def clausesText (clauses : List Clause) : String := String.intercalate "\n" (Clause.texts clauses)

end GraphSelection.Cypher
