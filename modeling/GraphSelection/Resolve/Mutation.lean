import GraphSelection.Resolve.Fields
import GraphSelection.Resolve.Nested

/-!
Changes at the root of a request: creation, update and deletion.
-/
namespace GraphSelection.Resolve

open GraphSelection Plan

namespace Setup

/-- The fields that a change gives back. -/
def returnedFields (s : Setup) (e : Entity) (q : Asked) (path : String) : Result (List Field) :=
  s.reader q.selection q.on e (q.fieldsFor e) path

def create (s : Setup) (e : Entity) (q : Asked) (path : String) : Result Create := do
  let here := childPath path "input"
  let values ← listArg q.args "input" path
  if values.isEmpty then throw (.mutation here .noInput)
  let nodes ← (indexed values).mapM fun (index, value) => do
    let there := itemPath here index
    let members ← asRecord value there
    s.newNode e ⟨members, there⟩
  let fields ← s.returnedFields e q path
  return { entity := e, nodes, fields }

/-- A change of what a relationship leads to, by the name of the action. -/
def relatedChange (s : Setup) (e : Entity) (action : String) (r : Relationship) (item : Placed) :
    Result Mutation :=
  match action with
  | "create" => s.nestedCreate s.newNode e r item
  | "connect" => s.nestedConnect e r item
  | "disconnect" => s.nestedDisconnect e r item
  | _ => s.nestedDelete s.deletions e r item

def relatedActions : List String := ["create", "connect", "disconnect", "delete"]

/-- One key of an update of a relationship. -/
def updateKey (s : Setup) (e : Entity) (r : Relationship) (path key : String) (value : Doc) :
    Result (List Mutation) := do
  let here := childPath path key
  if key = "where" || key = "update" then return []
  else if relatedActions.contains key then
    let items ← entriesOf value here
    items.mapM (s.relatedChange e key r)
  else throw (.mutation here (.unknownUpdate r.name))

/-- One entry of an update of a relationship: first the update itself, then its other keys. -/
def updateEntry (s : Setup) (e : Entity) (r : Relationship) (item : Placed) :
    Result (List Mutation) := do
  let updates := (item.members.get? "update").any fun value => !value.isNull
  let own ← (if updates then (s.nestedUpdate e r item).map ([·]) else .ok [] :
    Result (List Mutation))
  let others ← item.members.mapM fun (key, value) => s.updateKey e r item.path key value
  return own ++ others.flatten

/-- The changes under one relationship of an update. -/
def relatedUpdates (s : Setup) (e : Entity) (input : RelatedInput) : Result (List Mutation) := do
  let items ← entriesOf input.value input.path
  let found ← items.mapM (s.updateEntry e input.relationship)
  return found.flatten

/-- The arguments of an update that are keyed by relationship. -/
def relatedArguments (s : Setup) (e : Entity) (args : Doc.Members) (path : String) :
    Result (List Mutation) := do
  let found ← relatedActions.mapM fun action => do
    match ← recordArg args action path with
    | none => pure []
    | some members => byRelationship e ⟨members, childPath path action⟩ (s.relatedChange e action)
  return found.flatten

def update (s : Setup) (e : Entity) (q : Asked) (path : String) : Result Update := do
  let members ← recordArg q.args "update" path
  let input ← nodeInput e (childPath path "update") (members.getD [])
  let inside ← input.related.mapM (s.relatedUpdates e)
  let beside ← s.relatedArguments e q.args path
  let written := writtenBy input.assignments
  let members ← recordArg q.args "where" path
  let asked ← s.whereCondition e members path
  let rules ← guardFilter s e written .update
  let before ← guardValidations s e written .update .before
  let after ← guardValidations s e written .update .after
  let fields ← s.returnedFields e q path
  return { entity := e
           filter := Condition.allOf (asked.toList ++ rules.toList)
           before
           assignments := input.assignments
           nested := inside.flatten ++ beside
           after
           fields }

def delete (s : Setup) (e : Entity) (q : Asked) (path : String) : Result Delete := do
  let members ← recordArg q.args "where" path
  let asked ← s.whereCondition e members path
  let rules ← guardFilter s e [] .delete
  let before ← guardValidations s e [] .delete .before
  let members ← recordArg q.args "delete" path
  let nested ← s.deletions e ⟨members.getD [], childPath path "delete"⟩
  return { entity := e
           filter := Condition.allOf (asked.toList ++ rules.toList)
           before
           nested }

end Setup

end GraphSelection.Resolve
