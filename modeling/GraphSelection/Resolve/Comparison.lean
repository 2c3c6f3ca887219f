import GraphSelection.Plan.Condition
import GraphSelection.Resolve.Argument

/-!
Single comparisons. An attribute can be compared under a suffixed key (`title_GT`) or in an
operator object under its own key; one field of one record must not be written both ways.
-/
namespace GraphSelection.Resolve

open GraphSelection Plan

inductive Spelling where
  | suffixed
  | nested
  deriving DecidableEq, Repr

/-- Reading the keys of one record, with the spelling of each field met so far. -/
abbrev Keyed := StateT (Entries Spelling) (Except Failure)

/-- Notes the spelling of a field; a second, different spelling is refused. -/
def note (field : String) (spelling : Spelling) (path : String) : Keyed Unit := fun seen =>
  match seen.get? field with
  | some previous =>
      if previous = spelling then .ok ((), seen)
      else .error (.filter path (.mixedSpellings field))
  | none => .ok ((), seen ++ [(field, spelling)])

/-- The first ending of a table that a key has, with what stands before it. -/
def dropAny {α : Type} (key : String) : List (String × α) → Option (String × α)
  | [] => none
  | (ending, value) :: rest =>
      match Text.dropEnd? key ending with
      | some base => some (base, value)
      | none => dropAny key rest

/-- A record whose keys are all comparisons. -/
def isOperatorRecord (members : Doc.Members) : Bool :=
  !members.isEmpty &&
    members.all fun (key, _) => key == "caseInsensitive" || (Comparison.ofGeneric? key).isSome

def genericComparison (name path : String) : Result Comparison :=
  match Comparison.ofGeneric? name with
  | some op => .ok op
  | none => .error (.filter path (.unknownOperator name))

/-- Why an attribute does not take a comparison. -/
def unsuited? (a : Attribute) (op : Comparison) (value : Doc) (caseInsensitive : Bool) :
    Option String :=
  if caseInsensitive && !(a.kind.isTextual && !a.isList && (op == .eq || op.isTextual)) then
    some "case-insensitive matching needs a textual attribute"
  else if op.isTextual && (!a.kind.isTextual || a.isList) then
    some "string operators need a textual attribute"
  else if op.isOrdering && (!a.kind.isOrdered || a.isList) then
    some "ordering operators need an ordered attribute"
  else if op == .isIn && a.isList then some "`in` is not defined for list attributes"
  else if op == .isIn && !value.isList then some "`in` expects a list"
  else if op == .includes && !a.isList then some "`includes` needs a list attribute"
  else none

/-- A comparison suits its attribute; a claim takes any, a list apart. -/
def checkComparison (a : Option Attribute) (op : Comparison) (value : Doc)
    (caseInsensitive : Bool) (path : String) : Result Unit :=
  match a with
  | some a =>
      match unsuited? a op value caseInsensitive with
      | some why => .error (.filter path (.unsuited why a.name a.kind.name))
      | none => .ok ()
  | none => if op == .isIn && !value.isList then .error (.filter path .inNeedsList) else .ok ()

/-- How text of the form `$jwt.path` is read. -/
inductive ClaimMode where
  /-- As text. -/
  | ignore
  /-- As a claim of the principal. -/
  | use (principal : Principal)

def operand (mode : ClaimMode) (value : Doc) : Operand :=
  match mode, value with
  | .use principal, .text s =>
      match Text.dropStart? s "$jwt." with
      | some path => .claim path (principal.claim? path)
      | none => .literal value
  | _, _ => .literal value

/-- A comparison of a subject with a value; with null it is a test for null. -/
def compared (mode : ClaimMode) (subject : Subject) (a : Option Attribute) (op : Comparison)
    (value : Doc) (caseInsensitive : Bool) (path : String) : Result Condition :=
  if value.isNull then
    if op ≠ .eq || caseInsensitive then .error (.filter path .nullComparison)
    else .ok (.nullness subject true)
  else do
    checkComparison a op value caseInsensitive path
    return .compare subject op (operand mode value) caseInsensitive

/-- The comparisons of an operator object. -/
def operatorParts (mode : ClaimMode) (subject : Subject) (a : Option Attribute) (path : String) :
    Doc.Members → Result (List Condition)
  | [] => .ok []
  | (name, value) :: rest => do
      let here := childPath path name
      let parts ←
        if name = "caseInsensitive" then do
          let inner ← asRecord value here
          inner.mapM fun (name, value) => do
            let op ← genericComparison name here
            compared mode subject a op value true (childPath here name)
        else do
          let op ← genericComparison name here
          let c ← compared mode subject a op value false here
          pure [c]
      let more ← operatorParts mode subject a path rest
      return parts ++ more

/-- The first key of a record, which is named when the record is no operator object. -/
def firstKey (members : Doc.Members) : String := (members.head?.map Prod.fst).getD ""

/-- The value under the key of an attribute or a claim: an operator object, or a value to equal. -/
def attributeValue (mode : ClaimMode) (subject : Subject) (a : Option Attribute) (field : String)
    (value : Doc) (path : String) : Keyed (Option Condition) := do
  let isSpatial := a.any fun a => a.kind.isSpatial
  match value with
  | .record members =>
      if isOperatorRecord members then do
        note field .nested path
        let parts ← (operatorParts mode subject a path members : Result (List Condition))
        return Condition.allOf parts
      else if isSpatial then do
        note field .suffixed path
        let c ← (compared mode subject a .eq value false path : Result Condition)
        return some c
      else throw (.filter path (.unknownOperator (firstKey members)))
  | _ => do
      note field .suffixed path
      let c ← (compared mode subject a .eq value false path : Result Condition)
      return some c

end GraphSelection.Resolve
