import GraphSelection.Cypher.Basic
import GraphSelection.Document.Basic

/-!
Query programs as documents: each node under the name of its shape.
-/
namespace GraphSelection.Cypher

open GraphSelection

def tagged (tag : String) (payload : Doc) : Doc := .record [(tag, payload)]

def Literal.encode : Literal → Doc
  | .null => .text "Null"
  | .boolean b => tagged "Boolean" (.bool b)
  | .integer n => tagged "Integer" (.int n)
  | .float x => tagged "Float" (.float x)
  | .string s => tagged "String" (.text s)

def BinaryOp.name : BinaryOp → String
  | .equal => "Equal"
  | .notEqual => "NotEqual"
  | .less => "LessThan"
  | .lessEqual => "LessThanOrEqual"
  | .greater => "GreaterThan"
  | .greaterEqual => "GreaterThanOrEqual"
  | .contains => "Contains"
  | .startsWith => "StartsWith"
  | .endsWith => "EndsWith"
  | .isIn => "In"
  | .plus => "Addition"

def NodePattern.encode (n : NodePattern) : Doc :=
  .record [("variable", Doc.ofOption .text n.name), ("labels", Doc.ofTexts n.labels)]

def Arrow.name : Arrow → String
  | .right => "Right"
  | .left => "Left"
  | .undirected => "Undirected"

def EdgePattern.encode (e : EdgePattern) : Doc :=
  .record
    [("variable", Doc.ofOption .text e.name), ("rel_type", Doc.ofOption .text e.graphType),
     ("direction", .text e.arrow.name)]

def Pattern.encode (p : Pattern) : Doc :=
  .record
    [("start", p.start.encode),
     ("chain", .list (p.chain.map fun (edge, node) => .list [edge.encode, node.encode]))]

mutual
def Expr.encode : Expr → Doc
  | .var name => tagged "Variable" (.text name)
  | .param name => tagged "Parameter" (.text name)
  | .literal value => tagged "Literal" value.encode
  | .property base key => tagged "Property" (.record [("base", base.encode), ("key", .text key)])
  | .binary left op right =>
      tagged "Binary"
        (.record [("left", left.encode), ("operator", .text op.name), ("right", right.encode)])
  | .all items => tagged "And" (.list (Expr.encodeList items))
  | .any items => tagged "Or" (.list (Expr.encodeList items))
  | .not inner => tagged "Not" inner.encode
  | .isNull inner => tagged "IsNull" inner.encode
  | .isNotNull inner => tagged "IsNotNull" inner.encode
  | .apply function args =>
      tagged "Function" (.record [("name", .text function), ("args", .list (Expr.encodeList args))])
  | .distinct inner => tagged "Distinct" inner.encode
  | .hasLabels name labels =>
      tagged "HasLabels" (.record [("variable", .text name), ("labels", Doc.ofTexts labels)])
  | .map entries => tagged "Map" (.list (Expr.encodeEntries entries))
  | .projection name items =>
      tagged "MapProjection"
        (.record [("variable", .text name), ("items", .list (Expr.encodeItems items))])
  | .list items => tagged "List" (.list (Expr.encodeList items))
  | .choice condition result otherwise =>
      tagged "Case"
        (.record [("condition", condition.encode), ("then", result.encode),
          ("otherwise", otherwise.encode)])
  | .comprehension name list body =>
      tagged "ListComprehension"
        (.record [("variable", .text name), ("list", list.encode), ("projection", body.encode)])
  | .existsIn body => tagged "Exists" (.list (Clause.encodeList body))
  | .countIn body => tagged "CountSubquery" (.list (Clause.encodeList body))
  | .star => .text "Star"
def Expr.encodeList : List Expr → List Doc
  | [] => []
  | e :: rest => e.encode :: Expr.encodeList rest
def Expr.encodeEntries : List (String × Expr) → List Doc
  | [] => []
  | (key, e) :: rest => .list [.text key, e.encode] :: Expr.encodeEntries rest
def Expr.encodeItems : List (MapItem Expr) → List Doc
  | [] => []
  | .own key :: rest => tagged "Property" (.text key) :: Expr.encodeItems rest
  | .entry key e :: rest =>
      tagged "Entry" (.list [.text key, e.encode]) :: Expr.encodeItems rest
def Expr.encodeOption : Option Expr → Doc
  | none => .null
  | some e => e.encode
def Expr.encodeColumns : List (Column Expr) → List Doc
  | [] => []
  | ⟨e, rename⟩ :: rest =>
      .record [("expression", e.encode), ("alias", Doc.ofOption .text rename)] ::
        Expr.encodeColumns rest
def Expr.encodeOrder : List (OrderKey Expr) → List Doc
  | [] => []
  | ⟨e, descending⟩ :: rest =>
      .record [("expression", e.encode), ("descending", .bool descending)] ::
        Expr.encodeOrder rest
def Expr.encodeAssignments : List (Expr × Expr) → List Doc
  | [] => []
  | (target, value) :: rest =>
      .list [target.encode, value.encode] :: Expr.encodeAssignments rest
def Clause.encode : Clause → Doc
  | .matching pattern isOptional predicate =>
      tagged "Match"
        (.record [("pattern", pattern.encode), ("optional", .bool isOptional),
          ("predicate", Expr.encodeOption predicate)])
  | .carry columns isDistinct order skip limit predicate =>
      tagged "With"
        (.record [("items", .list (Expr.encodeColumns columns)), ("distinct", .bool isDistinct),
          ("order_by", .list (Expr.encodeOrder order)), ("skip", Expr.encodeOption skip),
          ("limit", Expr.encodeOption limit), ("predicate", Expr.encodeOption predicate)])
  | .unwind e rename =>
      tagged "Unwind" (.record [("expression", e.encode), ("alias", .text rename)])
  | .call imports body =>
      tagged "Call"
        (.record [("imports", Doc.ofTexts imports), ("body", .list (Clause.encodeList body))])
  | .union branches => tagged "Union" (.list (Clause.encodeBranches branches))
  | .create pattern => tagged "Create" pattern.encode
  | .merge pattern => tagged "Merge" pattern.encode
  | .set assignments => tagged "Set" (.list (Expr.encodeAssignments assignments))
  | .delete detach names =>
      tagged "Delete" (.record [("detach", .bool detach), ("variables", Doc.ofTexts names)])
  | .returning columns isDistinct =>
      tagged "Return"
        (.record [("items", .list (Expr.encodeColumns columns)), ("distinct", .bool isDistinct)])
  | .raw statement => tagged "Raw" (.text statement)
def Clause.encodeList : List Clause → List Doc
  | [] => []
  | c :: rest => c.encode :: Clause.encodeList rest
def Clause.encodeBranches : List (List Clause) → List Doc
  | [] => []
  | branch :: rest => .list (Clause.encodeList branch) :: Clause.encodeBranches rest
end

end GraphSelection.Cypher
