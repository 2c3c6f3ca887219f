import GraphSelection.Plan.Mutation
import GraphSelection.Resolve.Guard

/-!
Changes nested in other changes. New nodes nest new nodes and deletions nest deletions; each of the
two is read level by level, and the level at the height of an object reads all of it.
-/
namespace GraphSelection.Resolve

open GraphSelection Plan

/-- Entries of a change: a list of objects or a single object, each with its path. -/
def entriesOf (value : Doc) (path : String) : Result (List Placed) :=
  match value with
  | .null => .ok []
  | .list items => (indexed items).mapM fun (index, item) => do
      let here := itemPath path index
      let members ← asRecord item here
      pure ⟨members, here⟩
  | single => do
      let members ← asRecord single path
      return [⟨members, path⟩]

/-- A value for an attribute that is stored. -/
def assignment (owner : String) (find : String → Option Attribute) (name : String) (value : Doc) :
    Result Assignment :=
  match find name with
  | some a => if a.isComputed then .error (.unknownField owner name) else .ok ⟨a, value⟩
  | none => .error (.unknownField owner name)

def assignments (owner : String) (find : String → Option Attribute) (members : Doc.Members) :
    Result (List Assignment) :=
  members.mapM fun (name, value) => assignment owner find name value

def writtenBy (written : List Assignment) : List Attribute := written.map Assignment.target

/-- The changes under the key of a relationship. -/
structure RelatedInput where
  relationship : Relationship
  value : Doc
  path : String

/-- The members of an input, taken apart. -/
structure NodeInput where
  assignments : List Assignment := []
  related : List RelatedInput := []

def nodeInput (e : Entity) (path : String) : Doc.Members → Result NodeInput
  | [] => .ok {}
  | (key, value) :: rest =>
      match e.relationship? key with
      | some relationship => do
          let more ← nodeInput e path rest
          return { more with related := ⟨relationship, value, childPath path key⟩ :: more.related }
      | none => do
          let first ← assignment e.name e.attribute? key value
          let more ← nodeInput e path rest
          return { more with assignments := first :: more.assignments }

namespace Setup

def edgeAssignments (s : Setup) (r : Relationship) (members : Option Doc.Members) :
    Result (List Assignment) :=
  match members with
  | none => .ok []
  | some members =>
      match s.schema.propertiesOf r with
      | none => .error (.unknownField r.name "edge")
      | some properties => assignments properties.name properties.attribute? members

/-- The link that a nested change follows, where the relationship permits it. -/
def link (s : Setup) (owner : Entity) (r : Relationship) (action : NestedAction) (path : String) :
    Result Link := do
  if !r.allows action then throw (.notPermitted owner.name r.name action.name)
  match ← ofSchema (s.schema.targetOf r) with
  | .entity target => return ⟨r, target⟩
  | .composite c => throw (.mutation path (.isComposite c.name))

def linkPart (s : Setup) (l : Link) (properties : Option PropertySet) (path : String)
    (entry : String × Doc) : Result (List Condition) := do
  let (key, value) := entry
  let here := childPath path key
  if value.isNull then return []
  let keys ← (match key, properties with
    | "node", _ => .ok (.node l.target)
    | "edge", some properties => .ok (.edge properties)
    | "edge", none => .error (.unknownField l.relationship.name "edge")
    | _, _ => .error (.filter here .relationshipKeys) : Result Keys)
  let members ← asRecord value here
  let found ← s.requested keys (some members) here
  return found.toList

/-- The condition of a nested change, with the filter rules of its target. -/
def linkFilter (s : Setup) (l : Link) (properties : Option PropertySet) (item : Placed)
    (action : Action) : Result (Option Condition) := do
  let members ← recordArg item.members "where" item.path
  let parts ← (members.getD []).mapM (s.linkPart l properties (childPath item.path "where"))
  let rules ← guardFilter s l.target [] action
  return Condition.allOf (parts.flatten ++ rules.toList)

/-- How the input of a new node is read. -/
abbrev NodeMaker := Entity → Placed → Result (NewNode Mutation)

/-- How deletions by relationship are read. -/
abbrev DeletionReader := Entity → Placed → Result (List Mutation)

def nestedCreate (s : Setup) (make : NodeMaker) (owner : Entity) (r : Relationship)
    (item : Placed) : Result Mutation := do
  let link ← s.link owner r .create item.path
  let members ← recordArg item.members "node" item.path
  let node ← make link.target ⟨members.getD [], childPath item.path "node"⟩
  let linked ← guardValidations s link.target [] .createRelationship .after
  let edge ← recordArg item.members "edge" item.path
  let edge ← s.edgeAssignments r edge
  return .create link { node with validations := node.validations ++ linked } edge

def nestedConnect (s : Setup) (owner : Entity) (r : Relationship) (item : Placed) :
    Result Mutation := do
  let link ← s.link owner r .connect item.path
  let filter ← s.linkFilter link none item .createRelationship
  let validations ← guardValidations s link.target [] .createRelationship .after
  let edge ← recordArg item.members "edge" item.path
  let edge ← s.edgeAssignments r edge
  return .connect link filter edge validations

def nestedDisconnect (s : Setup) (owner : Entity) (r : Relationship) (item : Placed) :
    Result Mutation := do
  let link ← s.link owner r .disconnect item.path
  let filter ← s.linkFilter link (s.schema.propertiesOf r) item .deleteRelationship
  let validations ← guardValidations s link.target [] .deleteRelationship .before
  return .disconnect link filter validations

/-- A nested update takes attributes of the node and of the edge, and no further changes. -/
def nestedUpdate (s : Setup) (owner : Entity) (r : Relationship) (item : Placed) :
    Result Mutation := do
  let link ← s.link owner r .update item.path
  let filter ← s.linkFilter link (s.schema.propertiesOf r) item .update
  let update ← recordArg item.members "update" item.path
  let update := update.getD []
  let here := childPath item.path "update"
  let members ← recordArg update "node" here
  let node ← assignments link.target.name link.target.attribute? (members.getD [])
  let members ← recordArg update "edge" here
  let edge ← s.edgeAssignments r members
  let before ← guardValidations s link.target (writtenBy node) .update .before
  let after ← guardValidations s link.target (writtenBy node) .update .after
  return .update link filter before node edge after

def nestedDelete (s : Setup) (deletions : DeletionReader) (owner : Entity) (r : Relationship)
    (item : Placed) : Result Mutation := do
  let link ← s.link owner r .delete item.path
  let filter ← s.linkFilter link (s.schema.propertiesOf r) item .delete
  let before ← guardValidations s link.target [] .delete .before
  let nested ← (do
    match ← recordArg item.members "delete" item.path with
    | none => pure []
    | some members => deletions link.target ⟨members, childPath item.path "delete"⟩ :
      Result (List Mutation))
  return .delete link filter before nested

/-- One change nested in a new node. -/
def newNodeChange (s : Setup) (make : NodeMaker) (owner : Entity) (r : Relationship)
    (action path : String) (item : Placed) : Result Mutation :=
  match action with
  | "create" => s.nestedCreate make owner r item
  | "connect" => s.nestedConnect owner r item
  | _ => .error (.mutation path .newNodeActions)

/-- The changes nested in a new node under one relationship. -/
def newNodeChanges (s : Setup) (make : NodeMaker) (owner : Entity) (input : RelatedInput) :
    Result (List Mutation) := do
  let actions ← asRecord input.value input.path
  let found ← actions.mapM fun (action, value) => do
    let here := childPath input.path action
    let items ← entriesOf value here
    items.mapM (s.newNodeChange make owner input.relationship action here)
  return found.flatten

/-- A new node with what its rules ask once it is written. -/
def checkedNode (s : Setup) (e : Entity) (assignments : List Assignment) (nested : List Mutation) :
    Result (NewNode Mutation) := do
  let validations ← guardValidations s e (writtenBy assignments) .create .after
  return { assignments, nested, validations }

/-- A new node out of an object whose records nest at most this deep. -/
def newNodeAt (s : Setup) : Nat → NodeMaker
  | 0, e, _ => s.checkedNode e [] []
  | depth + 1, e, item => do
      let input ← nodeInput e item.path item.members
      let nested ← input.related.mapM (s.newNodeChanges (s.newNodeAt depth) e)
      s.checkedNode e input.assignments nested.flatten

def newNode (s : Setup) : NodeMaker := fun e item =>
  s.newNodeAt (Doc.membersHeight item.members) e item

/-- Entries by relationship, each read by itself. -/
def byRelationship (e : Entity) (item : Placed)
    (read : Relationship → Placed → Result Mutation) : Result (List Mutation) := do
  let found ← item.members.mapM fun (name, value) =>
    match e.relationship? name with
    | none => throw (.unknownField e.name name)
    | some r => do
        let items ← entriesOf value (childPath item.path name)
        items.mapM (read r)
  return found.flatten

/-- Deletions out of an object whose records nest at most this deep. -/
def deletionsAt (s : Setup) : Nat → DeletionReader
  | 0, _, _ => .ok []
  | depth + 1, e, item => byRelationship e item (s.nestedDelete (s.deletionsAt depth) e)

def deletions (s : Setup) : DeletionReader := fun e item =>
  s.deletionsAt (Doc.membersHeight item.members) e item

end Setup

end GraphSelection.Resolve
