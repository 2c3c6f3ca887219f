import GraphSelection.Document.Decode

/-!
Authorization rules. A filter rule narrows what an action sees; a validation stops the program. A
rule may ask for a signed-in principal, for conditions on the guarded node and for conditions on
the principal's claims.
-/
namespace GraphSelection

/-- What a rule guards. -/
inductive Action where
  | read
  | aggregate
  | create
  | update
  | delete
  | createRelationship
  | deleteRelationship
  deriving DecidableEq, Repr

namespace Action

def table : List (String × Action) :=
  [("READ", .read), ("AGGREGATE", .aggregate), ("CREATE", .create), ("UPDATE", .update),
   ("DELETE", .delete), ("CREATE_RELATIONSHIP", .createRelationship),
   ("DELETE_RELATIONSHIP", .deleteRelationship)]

def all : List Action := table.map Prod.snd

def name : Action → String
  | .read => "READ"
  | .aggregate => "AGGREGATE"
  | .create => "CREATE"
  | .update => "UPDATE"
  | .delete => "DELETE"
  | .createRelationship => "CREATE_RELATIONSHIP"
  | .deleteRelationship => "DELETE_RELATIONSHIP"

/-- Reading changes nothing, so there is no before and after. -/
def isReading : Action → Bool
  | .read | .aggregate => true
  | _ => false

end Action

/-- The state a validation looks at: the one that was matched, or the one that was written. -/
inductive Moment where
  | before
  | after
  deriving DecidableEq, Repr

namespace Moment

def table : List (String × Moment) := [("BEFORE", .before), ("AFTER", .after)]

def all : List Moment := table.map Prod.snd

def name : Moment → String
  | .before => "BEFORE"
  | .after => "AFTER"

end Moment

inductive RuleKind where
  | filter
  | validate
  deriving DecidableEq, Repr

namespace RuleKind

def table : List (String × RuleKind) := [("filter", .filter), ("validate", .validate)]

def name : RuleKind → String
  | .filter => "filter"
  | .validate => "validate"

end RuleKind

structure Rule where
  kind : RuleKind
  actions : List Action
  /-- Only validations look at it. -/
  moments : List Moment
  needsAuthentication : Bool
  /-- Conditions on the guarded node, in which text of the form `$jwt.path` stands for a claim. -/
  node : Option Doc
  /-- Conditions whose keys are paths of claims. -/
  claims : Option Doc

namespace Rule

def appliesTo (rule : Rule) (action : Action) : Bool := rule.actions.contains action

def appliesAt (rule : Rule) (action : Action) (moment : Moment) : Bool :=
  rule.kind == .validate && rule.appliesTo action &&
    (action.isReading || rule.moments.contains moment)

def decodeTemplates : Decoder (Option Doc × Option Doc) := fun format doc => do
  let fs ← Decode.fields ["node", "jwt"] format doc
  let node ← Decode.orElse (Decode.optional Decode.free) fs "node" none
  let claims ← Decode.orElse (Decode.optional Decode.free) fs "jwt" none
  return (node, claims)

def decode : Decoder Rule := fun format doc => do
  let fs ← Decode.fields ["kind", "operations", "when", "requireAuthentication", "where"] format doc
  let kind ← Decode.required (Decode.choice RuleKind.table) fs "kind"
  let actions ← Decode.orElse (Decode.choices Action.table) fs "operations" Action.all
  let moments ← Decode.orElse (Decode.choices Moment.table) fs "when" Moment.all
  let needsAuthentication ← Decode.orElse Decode.bool fs "requireAuthentication" true
  let (node, claims) ← Decode.orElse decodeTemplates fs "where" (none, none)
  return { kind, actions, moments, needsAuthentication, node, claims }

def encode (rule : Rule) : Doc :=
  .record
    [("kind", .text rule.kind.name),
     ("operations", Doc.ofTexts (rule.actions.map Action.name)),
     ("when", Doc.ofTexts (rule.moments.map Moment.name)),
     ("requireAuthentication", .bool rule.needsAuthentication),
     ("where", .record
       ((rule.node.map fun d => ("node", d)).toList ++
         (rule.claims.map fun d => ("jwt", d)).toList))]

end Rule

end GraphSelection
