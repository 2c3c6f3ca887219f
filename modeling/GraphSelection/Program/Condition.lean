import GraphSelection.Document.Json
import GraphSelection.Plan.Condition
import GraphSelection.Program.Computed
import GraphSelection.Program.Pattern
import GraphSelection.Program.Reduction

/-!
Conditions as predicates. A leaf that cannot be written inline (an aggregation, a computed
attribute) becomes a call before the predicate and a variable inside it. Within one predicate, two
leaves with the same key share one call.
-/
namespace GraphSelection.Program

open GraphSelection Cypher Plan

/-- The calls a predicate depends on, and the variables known for their keys. -/
structure Subqueries where
  known : Entries String := []
  calls : List Clause := []

/-- Building a predicate. -/
abbrev Predicate := StateT Subqueries Build

/-- Builds a predicate together with the calls it depends on. -/
def gathered {α : Type} (p : Predicate α) : Build (α × List Clause) := do
  let (a, s) ← p.run {}
  return (a, s.calls)

/-- The variable of a call; a call with a known key is not made again. -/
def shared (key : String) (call : String → Build Clause) : Predicate String := do
  match (← get).known.get? key with
  | some name => return name
  | none =>
      let name ← (fresh "var" : Build String)
      let clause ← (call name : Build Clause)
      modify fun s => { known := s.known ++ [(key, name)], calls := s.calls ++ [clause] }
      return name

def computedKey (subject : String) (a : Attribute) : String :=
  "computed:" ++ subject ++ ":" ++ a.name

def aggregationKey (subject : String) (a : Aggregation) : String :=
  "aggregate:" ++ subject ++ ":" ++ a.relationship.name ++ ":" ++ a.measure.key ++ ":" ++
    a.op.name ++ ":" ++ Json.compact a.value

/-- `left op right`; a list that includes a value is a value in a list. -/
def comparison (op : Comparison) (left right : Expr) : Expr :=
  match op with
  | .eq => .binary left .equal right
  | .gt => .binary left .greater right
  | .gte => .binary left .greaterEqual right
  | .lt => .binary left .less right
  | .lte => .binary left .lessEqual right
  | .contains => .binary left .contains right
  | .startsWith => .binary left .startsWith right
  | .endsWith => .binary left .endsWith right
  | .isIn => .binary left .isIn right
  | .includes => .binary right .isIn left

/-- The call that compares a measure over a relationship with a value. -/
def aggregationCall (ctx : Context) (a : Aggregation) (result : String) : Build Clause := do
  let edge ← fresh "this"
  let node ← fresh "this"
  let pattern :=
    traversal ctx.subject a.relationship edge (NodePattern.named node a.target.labels)
  let (before, reduced) ← (measured a.measure node (some edge) : Except Failure Reduced)
  let left := if a.measure.comparesLength then .apply "size" [reduced] else reduced
  let right ← typedParam a.value a.measure.valueKind?
  return .call [ctx.subject]
    (.find pattern none :: before ++ [.give (comparison a.op left right) result])

/-- A claim as a parameter, null when it is missing, and the guard that it is there. -/
def claimParam (value : Option Doc) : Build (List Expr × Expr) := do
  let p ← param (value.getD .null)
  return ([.isNotNull p], p)

/-- The left side of a comparison, with its guards. -/
def subjectExpr (ctx : Context) : Subject → Predicate (List Expr × Expr)
  | .node a => return ([], .propertyOf ctx.subject a.stored)
  | .edge a => do
      let edge ← (ctx.edge : Except Failure String)
      return ([], .propertyOf edge a.stored)
  | .computed a => do
      let name ← shared (computedKey ctx.subject a) (computedCall ctx a)
      return ([], .var name)
  | .claim _ value => (claimParam value : Build (List Expr × Expr))

/-- The right side of a comparison, with its guards. -/
def operandExpr (kind : Option ScalarKind) (op : Comparison) : Operand → Build (List Expr × Expr)
  | .literal value => do
      let p ← if op = .isIn then typedListParam value kind else typedParam value kind
      return ([], p)
  | .claim _ value => claimParam value

def lowered (caseInsensitive : Bool) (e : Expr) : Expr :=
  if caseInsensitive then .apply "toLower" [e] else e

/-- A comparison after the guards of its two sides. -/
def comparePredicate (ctx : Context) (subject : Subject) (op : Comparison) (operand : Operand)
    (caseInsensitive : Bool) : Predicate Expr := do
  let (leftGuards, left) ← subjectExpr ctx subject
  let (rightGuards, right) ← (operandExpr subject.kind? op operand : Build (List Expr × Expr))
  let test := comparison op (lowered caseInsensitive left) (lowered caseInsensitive right)
  return (Expr.allOf (leftGuards ++ rightGuards ++ [test])).getD (.bool true)

/-- A match with the calls and the predicate that narrow it. -/
def narrowed (pattern : Pattern) (calls : List Clause) (predicate : Option Expr) : List Clause :=
  if calls.isEmpty then [.find pattern predicate]
  else .find pattern none :: calls ++ (predicate.map Clause.keep).toList

/-- A quantified block; `every` asks for a match and for no match that fails. -/
def quantified (q : Quantifier) (pattern : Pattern) (calls : List Clause)
    (predicate : Option Expr) : Expr :=
  let body := narrowed pattern calls
  match q, predicate with
  | .atLeastOne, p => .existsIn (body p)
  | .noneAtAll, p => .not (.existsIn (body p))
  | .exactlyOne, p => .equals (.countIn (body p)) (.int 1)
  | .every, none => .existsIn (body none)
  | .every, some p =>
      .all [.existsIn (body (some p)), .not (.existsIn (body (some (.not p))))]

/-- The labels that a related node is asked for; the constituents of a composite bring their own. -/
def targetLabels (isComposite : Bool) (targets : List (Entity × Option Condition)) : List String :=
  match isComposite, targets with
  | false, (e, _) :: _ => e.labels
  | _, _ => []

mutual
def Condition.predicate (ctx : Context) : Condition → Predicate Expr
  | .all items => do
      return (Expr.allOf (← Condition.predicates ctx items)).getD (.bool true)
  | .any items => do
      return (Expr.anyOf (← Condition.predicates ctx items)).getD (.bool false)
  | .not inner => do
      return .not (← Condition.predicate ctx inner)
  | .compare subject op operand caseInsensitive =>
      comparePredicate ctx subject op operand caseInsensitive
  | .nullness subject isNull => do
      let (_, e) ← subjectExpr ctx subject
      return if isNull then .isNull e else .isNotNull e
  | .labels labels => return .hasLabels ctx.subject labels
  | .related relationship quantifier targets isComposite edgeCondition => do
      let edge ← (fresh "this" : Build String)
      let node ← (fresh "this" : Build String)
      let inner := ctx.enter node (some edge) ctx.result
      let pattern := traversal ctx.subject relationship edge
        (NodePattern.named node (targetLabels isComposite targets))
      let (parts, calls) ← (gathered (do
        let targetParts ←
          if isComposite then do
            let alternatives ← Condition.alternatives inner targets
            pure [(Expr.anyOf alternatives).getD (.bool false)]
          else Condition.firstTarget inner targets
        let edgeParts ← Condition.optionPredicate inner edgeCondition
        pure (targetParts ++ edgeParts)) : Build (List Expr × List Clause))
      return quantified quantifier pattern calls (Expr.allOf parts)
  | .aggregation a => do
      let name ← shared (aggregationKey ctx.subject a) (aggregationCall ctx a)
      return .equals (.var name) (.bool true)
  | .authenticated => do
      let p ← (param (.bool ctx.terms.authenticated) : Build Expr)
      return .equals p (.bool true)
def Condition.predicates (ctx : Context) : List Condition → Predicate (List Expr)
  | [] => return []
  | c :: rest => do
      let e ← Condition.predicate ctx c
      let es ← Condition.predicates ctx rest
      return e :: es
/-- One alternative for each constituent: its labels and its own condition. -/
def Condition.alternatives (ctx : Context) :
    List (Entity × Option Condition) → Predicate (List Expr)
  | [] => return []
  | (e, filter) :: rest => do
      let own ← Condition.optionPredicate ctx filter
      let es ← Condition.alternatives ctx rest
      return (Expr.allOf (.hasLabels ctx.subject e.labels :: own)).toList ++ es
def Condition.firstTarget (ctx : Context) :
    List (Entity × Option Condition) → Predicate (List Expr)
  | [] => return []
  | (_, filter) :: _ => Condition.optionPredicate ctx filter
def Condition.optionPredicate (ctx : Context) : Option Condition → Predicate (List Expr)
  | none => return []
  | some c => do
      return [← Condition.predicate ctx c]
end

/-- The nodes of a pattern on which a condition holds. -/
def filteredMatch (pattern : Pattern) (filter : Option Condition) (ctx : Context) :
    Build (List Clause) := do
  let (parts, calls) ← gathered (Condition.optionPredicate ctx filter)
  return narrowed pattern calls parts.head?

/-- Stops the program with the forbidden message unless the predicate holds. -/
def assertion (terms : Terms) (predicate : Expr) : Clause :=
  .keep (.apply "apoc.util.validatePredicate"
    [.not predicate, .string terms.forbidden, .list [.int 0]])

/-- The calls and predicates of validations, each of which depends on its own calls only. -/
def validationParts (ctx : Context) : List Condition → Build (List Clause × List Expr)
  | [] => return ([], [])
  | c :: rest => do
      let (e, calls) ← gathered (Condition.predicate ctx c)
      let (more, es) ← validationParts ctx rest
      return (calls ++ more, e :: es)

/-- One assertion of all validations. -/
def validated (ctx : Context) (validations : List Condition) : Build (List Clause) := do
  let (calls, predicates) ← validationParts ctx validations
  return calls ++ ((Expr.allOf predicates).map (assertion ctx.terms)).toList

end GraphSelection.Program
