import GraphSelection.Cypher.Encode

/-!
Query programs out of documents. Every node is a record, so records nest at least as deep as nodes
do; the level at the height of a document reads all of it.
-/
namespace GraphSelection.Cypher

open GraphSelection

/-- A member of a record. -/
def member? (doc : Doc) (name : String) : Option Doc :=
  doc.asRecord?.bind fun members => Entries.get? members name

def asBool? : Doc → Option Bool
  | .bool b => some b
  | _ => none

def asList? : Doc → Option (List Doc)
  | .list items => some items
  | _ => none

def asTexts? (doc : Doc) : Option (List String) :=
  (asList? doc).bind fun items => items.mapM Doc.asText?

/-- Null stands for nothing. -/
def orNull {α : Type} (read : Doc → Option α) : Doc → Option (Option α)
  | .null => some none
  | doc => (read doc).map some

def textMember? (doc : Doc) (name : String) : Option String :=
  (member? doc name).bind Doc.asText?

def boolMember? (doc : Doc) (name : String) : Option Bool := (member? doc name).bind asBool?

def Literal.decode : Doc → Option Literal
  | .text "Null" => some .null
  | .record [("Boolean", .bool b)] => some (.boolean b)
  | .record [("Integer", .int n)] =>
      if -Decimal.word63 ≤ n ∧ n < Decimal.word63 then some (.integer n) else none
  | .record [("Float", .float x)] => some (.float x)
  | .record [("Float", .int n)] => some (.float (Float.ofInt n))
  | .record [("String", .text s)] => some (.string s)
  | _ => none

def BinaryOp.table : List BinaryOp :=
  [.equal, .notEqual, .less, .lessEqual, .greater, .greaterEqual, .contains, .startsWith,
   .endsWith, .isIn, .plus]

def BinaryOp.decode (doc : Doc) : Option BinaryOp :=
  doc.asText?.bind fun name => BinaryOp.table.find? (·.name == name)

def NodePattern.decode (doc : Doc) : Option NodePattern := do
  let name ← (member? doc "variable").bind (orNull Doc.asText?)
  let labels ← (member? doc "labels").bind asTexts?
  return { name, labels }

def Arrow.decode (doc : Doc) : Option Arrow :=
  doc.asText?.bind fun name => [Arrow.right, .left, .undirected].find? (·.name == name)

def EdgePattern.decode (doc : Doc) : Option EdgePattern := do
  let name ← (member? doc "variable").bind (orNull Doc.asText?)
  let graphType ← (member? doc "rel_type").bind (orNull Doc.asText?)
  let arrow ← (member? doc "direction").bind Arrow.decode
  return { name, graphType, arrow }

def Pattern.decode (doc : Doc) : Option Pattern := do
  let start ← (member? doc "start").bind NodePattern.decode
  let chain ← (member? doc "chain").bind asList?
  let chain ← chain.mapM fun
    | .list [edge, node] => do
        let edge ← EdgePattern.decode edge
        let node ← NodePattern.decode node
        pure (edge, node)
    | _ => none
  return { start, chain }

/-- A key and the expression under it. -/
def entryBy (read : Doc → Option Expr) : Doc → Option (String × Expr)
  | .list [.text key, value] => (read value).map fun e => (key, e)
  | _ => none

def itemBy (read : Doc → Option Expr) : Doc → Option (MapItem Expr)
  | .record [("Property", .text key)] => some (.own key)
  | .record [("Entry", entry)] => (entryBy read entry).map fun (key, e) => .entry key e
  | _ => none

def columnBy (read : Doc → Option Expr) (doc : Doc) : Option (Column Expr) := do
  let expression ← (member? doc "expression").bind read
  let rename ← (member? doc "alias").bind (orNull Doc.asText?)
  return { expression, rename }

def orderKeyBy (read : Doc → Option Expr) (doc : Doc) : Option (OrderKey Expr) := do
  let expression ← (member? doc "expression").bind read
  let descending ← boolMember? doc "descending"
  return { expression, descending }

def assignmentBy (read : Doc → Option Expr) : Doc → Option (Expr × Expr)
  | .list [target, value] => do
      let target ← read target
      let value ← read value
      return (target, value)
  | _ => none

def listBy {α : Type} (read : Doc → Option α) (doc : Doc) : Option (List α) :=
  (asList? doc).bind fun items => items.mapM read

/-- An expression of one shape, given how the parts are read. -/
def exprBy (expr : Doc → Option Expr) (clause : Doc → Option Clause) (shape : String)
    (doc : Doc) : Option Expr := do
  let part (name : String) : Option Expr := (member? doc name).bind expr
  match shape with
  | "Variable" => return .var (← doc.asText?)
  | "Parameter" => return .param (← doc.asText?)
  | "Literal" => return .literal (← Literal.decode doc)
  | "Property" => return .property (← part "base") (← textMember? doc "key")
  | "Binary" =>
      let op ← (member? doc "operator").bind BinaryOp.decode
      return .binary (← part "left") op (← part "right")
  | "And" => return .all (← listBy expr doc)
  | "Or" => return .any (← listBy expr doc)
  | "Not" => return .not (← expr doc)
  | "IsNull" => return .isNull (← expr doc)
  | "IsNotNull" => return .isNotNull (← expr doc)
  | "Function" =>
      return .apply (← textMember? doc "name") (← (member? doc "args").bind (listBy expr))
  | "Distinct" => return .distinct (← expr doc)
  | "HasLabels" =>
      return .hasLabels (← textMember? doc "variable") (← (member? doc "labels").bind asTexts?)
  | "Map" => return .map (← listBy (entryBy expr) doc)
  | "MapProjection" =>
      let items ← (member? doc "items").bind (listBy (itemBy expr))
      return .projection (← textMember? doc "variable") items
  | "List" => return .list (← listBy expr doc)
  | "Case" => return .choice (← part "condition") (← part "then") (← part "otherwise")
  | "ListComprehension" =>
      return .comprehension (← textMember? doc "variable") (← part "list") (← part "projection")
  | "Exists" => return .existsIn (← listBy clause doc)
  | "CountSubquery" => return .countIn (← listBy clause doc)
  | _ => none

/-- A clause of one shape, given how the parts are read. -/
def clauseBy (expr : Doc → Option Expr) (clause : Doc → Option Clause) (shape : String)
    (doc : Doc) : Option Clause := do
  let part (name : String) : Option (Option Expr) := (member? doc name).bind (orNull expr)
  let columns : Option (List (Column Expr)) := (member? doc "items").bind (listBy (columnBy expr))
  match shape with
  | "Match" =>
      let pattern ← (member? doc "pattern").bind Pattern.decode
      return .matching pattern (← boolMember? doc "optional") (← part "predicate")
  | "With" =>
      let order ← (member? doc "order_by").bind (listBy (orderKeyBy expr))
      return .carry (← columns) (← boolMember? doc "distinct") order (← part "skip")
        (← part "limit") (← part "predicate")
  | "Unwind" =>
      return .unwind (← (member? doc "expression").bind expr) (← textMember? doc "alias")
  | "Call" =>
      return .call (← (member? doc "imports").bind asTexts?)
        (← (member? doc "body").bind (listBy clause))
  | "Union" => return .union (← listBy (listBy clause) doc)
  | "Create" => return .create (← Pattern.decode doc)
  | "Merge" => return .merge (← Pattern.decode doc)
  | "Set" => return .set (← listBy (assignmentBy expr) doc)
  | "Delete" =>
      return .delete (← boolMember? doc "detach") (← (member? doc "variables").bind asTexts?)
  | "Return" => return .returning (← columns) (← boolMember? doc "distinct")
  | "Raw" => return .raw (← doc.asText?)
  | _ => none

mutual
/-- An expression whose records nest at most this deep. -/
def Expr.decodeAt : Nat → Doc → Option Expr
  | _, .text "Star" => some .star
  | depth + 1, .record [(shape, doc)] =>
      exprBy (Expr.decodeAt depth) (Clause.decodeAt depth) shape doc
  | _, _ => none
/-- A clause whose records nest at most this deep. -/
def Clause.decodeAt : Nat → Doc → Option Clause
  | depth + 1, .record [(shape, doc)] =>
      clauseBy (Expr.decodeAt depth) (Clause.decodeAt depth) shape doc
  | _, _ => none
end

def Expr.decode (doc : Doc) : Option Expr := Expr.decodeAt doc.height doc

def Clause.decode (doc : Doc) : Option Clause := Clause.decodeAt doc.height doc

end GraphSelection.Cypher
