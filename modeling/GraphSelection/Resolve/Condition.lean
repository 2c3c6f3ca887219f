import GraphSelection.Resolve.Aggregation
import GraphSelection.Resolve.Composite

/-!
Conditions out of `where` objects. One level of an object is read with the level below as a
parameter; records nest only finitely deep, so the level at the height of an object reads all of
it. At height zero there are no entries left to read.
-/
namespace GraphSelection.Resolve

open GraphSelection Plan

/-- What the keys of an object are about. -/
inductive Keys where
  | node (e : Entity)
  | edge (p : PropertySet)
  /-- Paths of claims. -/
  | claims

namespace Keys

def owner : Keys → String
  | .node e => e.name
  | .edge p => p.name
  | .claims => "jwt"

/-- The attribute under a key, as the left side of a comparison. -/
def attribute? (keys : Keys) (name : String) : Option (Subject × Attribute) :=
  match keys with
  | .node e =>
      (e.attribute? name).map fun a => (if a.isComputed then .computed a else .node a, a)
  | .edge p => (p.attribute? name).map fun a => (.edge a, a)
  | .claims => none

end Keys

/-- How objects are read: against which schema, for whom, and with claims or without. -/
structure Reader where
  setup : Setup
  usesClaims : Bool

def Reader.mode (r : Reader) : ClaimMode := if r.usesClaims then .use r.setup.principal else .ignore

/-- A reader of objects, without spellings noted outside them. -/
abbrev Level := Keys → Doc.Members → String → Result (Option Condition)

namespace Reader

def isQuantifierRecord (members : Doc.Members) : Bool :=
  members.any fun (key, _) => (Quantifier.ofGeneric? key).isSome

/-- The part of a `where` for a related node; null is as good as none. -/
def nodePart (node : Option Doc) (path : String) : Result (Option Doc.Members) :=
  match node with
  | none => .ok none
  | some .null => .ok none
  | some value => (asRecord value (childPath path "node")).map some

def optionally (below : Level) (keys : Keys) (members : Option Doc.Members) (path : String) :
    Result (Option Condition) :=
  match members with
  | none => .ok none
  | some members => below keys members path

def edgePart (r : Reader) (below : Level) (relationship : Relationship) (edge : Option Doc)
    (path : String) : Result (Option Condition) :=
  match edge with
  | none => .ok none
  | some .null => .ok none
  | some value =>
      match r.setup.schema.propertiesOf relationship with
      | none => .error (.unknownField relationship.name "edge")
      | some properties => do
          let here := childPath path "edge"
          let members ← asRecord value here
          below (.edge properties) members here

/-- A condition on the nodes that a relationship leads to. -/
def related (r : Reader) (below : Level) (relationship : Relationship) (quantifier : Quantifier)
    (node edge : Option Doc) (path : String) : Result Condition := do
  let members ← nodePart node path
  match ← ofSchema (r.setup.schema.targetOf relationship) with
  | .entity e => do
      let filter ← optionally below (.node e) members path
      let edge ← r.edgePart below relationship edge path
      return .related relationship quantifier [(e, filter)] false edge
  | .composite c => do
      let kept ← narrow r.setup.schema c members path
      let targets ← kept.mapM fun (e, rest) => do
        let filter ← optionally below (.node e) rest path
        pure (e, filter)
      let edge ← r.edgePart below relationship edge path
      return .related relationship quantifier targets true edge

/-- A condition on `node` and `edge` of a connection. -/
def connected (r : Reader) (below : Level) (relationship : Relationship)
    (quantifier : Quantifier) (value : Doc) (path : String) : Result Condition :=
  if value.isNull then r.related below relationship quantifier none none path
  else do
    let members ← asRecord value path
    match members.find? fun (key, _) => key != "node" && key != "edge" with
    | some (key, _) => .error (.filter (childPath path key) .connectionKeys)
    | none =>
        r.related below relationship quantifier (members.get? "node") (members.get? "edge") path

def quantifierOf (key path : String) : Result Quantifier :=
  match Quantifier.ofGeneric? key with
  | some q => .ok q
  | none => .error (.filter path (.mixedQuantifiers key))

/-- The value under the key of a relationship. -/
def relationshipValue (r : Reader) (below : Level) (relationship : Relationship) (field : String)
    (value : Doc) (path : String) : Keyed (Option Condition) := do
  if value.isNull then
    note field .suffixed path
    let c ← (r.related below relationship .noneAtAll none none path : Result Condition)
    return some c
  let members ← (asRecord value path : Result Doc.Members)
  if isQuantifierRecord members then
    note field .nested path
    let parts ← (members.mapM fun (key, inner) => do
      let q ← quantifierOf key path
      r.related below relationship q (some inner) none (childPath path key) :
        Result (List Condition))
    return Condition.allOf parts
  else
    note field .suffixed path
    let c ← (r.related below relationship .atLeastOne (some value) none path : Result Condition)
    return some c

def aggregation (r : Reader) (relationship : Relationship) (members : Doc.Members)
    (path : String) : Result (Option Condition) := do
  match ← ofSchema (r.setup.schema.targetOf relationship) with
  | .entity e =>
      AggregationKeys.condition
        ⟨relationship, e, r.setup.schema.propertiesOf relationship⟩ members path
  | .composite c => .error (.aggregation path (.isComposite c.name))

/-- One entry of a connection object with quantifiers. -/
def connectionPart (r : Reader) (below : Level) (relationship : Relationship) (path key : String)
    (inner : Doc) : Result (List Condition) := do
  let here := childPath path key
  if key = "aggregate" then
    let members ← asRecord inner here
    let c ← r.aggregation relationship members here
    return c.toList
  else
    let q ← quantifierOf key path
    let c ← r.connected below relationship q inner here
    return [c]

/-- The value under the key of a connection. -/
def connectionValue (r : Reader) (below : Level) (relationship : Relationship) (field : String)
    (value : Doc) (path : String) : Keyed (Option Condition) := do
  if value.isNull then
    note field .suffixed path
    let c ← (r.related below relationship .noneAtAll none none path : Result Condition)
    return some c
  let members ← (asRecord value path : Result Doc.Members)
  if members.any fun (key, _) => key == "aggregate" || (Quantifier.ofGeneric? key).isSome then
    note field .nested path
    let parts ← (members.mapM fun (key, inner) =>
      r.connectionPart below relationship path key inner : Result (List (List Condition)))
    return Condition.allOf parts.flatten
  else
    note field .suffixed path
    let c ← (r.connected below relationship .atLeastOne value path : Result Condition)
    return some c

/-- Keys made of the name of a relationship: with a quantifier, as a connection, as an aggregate.
A key that constrains nothing counts as no such key. -/
def relationshipVariant (r : Reader) (below : Level) (e : Entity) (key : String) (value : Doc)
    (path : String) : Keyed (Option Condition) := do
  let quantified := dropAny key Quantifier.endings
  let base := (quantified.map Prod.fst).getD key
  let quantifier := quantified.map Prod.snd
  match quantifier, e.relationship? base with
  | some q, some relationship =>
      note base .suffixed path
      let c ← (r.related below relationship q (some value) none path : Result Condition)
      return some c
  | _, _ =>
      match (Text.dropEnd? base "Connection").bind e.relationship?, quantifier with
      | some relationship, some q =>
          note base .suffixed path
          let c ← (r.connected below relationship q value path : Result Condition)
          return some c
      | some relationship, none => r.connectionValue below relationship base value path
      | none, some _ => return none
      | none, none =>
          match (Text.dropEnd? key "Aggregate").bind e.relationship? with
          | some relationship =>
              let members ← (asRecord value path : Result Doc.Members)
              let c ← (r.aggregation relationship members path : Result (Option Condition))
              return c
          | none => return none

/-- A suffixed key of an attribute; the last reading that is tried. -/
def suffixedKey (r : Reader) (keys : Keys) (key : String) (value : Doc) (path : String) :
    Keyed (Option Condition) := do
  let found := (dropAny key Comparison.endings).bind fun (base, op) =>
    (keys.attribute? base).map fun (subject, a) => (base, op, subject, a)
  match found with
  | some (base, op, subject, a) =>
      note base .suffixed path
      let c ← (compared r.mode subject (some a) op value false path : Result Condition)
      return some c
  | none => throw (.unknownField keys.owner key)

def claimSubject (r : Reader) (path : String) : Subject :=
  .claim path (r.setup.principal.claim? path)

def claimKey (r : Reader) (key : String) (value : Doc) (path : String) :
    Keyed (Option Condition) := do
  match dropAny key Comparison.endings with
  | some (base, op) =>
      note base .suffixed path
      let c ← (compared r.mode (r.claimSubject base) none op value false path : Result Condition)
      return some c
  | none => attributeValue r.mode (r.claimSubject key) none key value path

/-- A key that is none of the connectives. -/
def fieldKey (r : Reader) (below : Level) (keys : Keys) (key : String) (value : Doc)
    (path : String) : Keyed (Option Condition) := do
  match keys with
  | .claims => r.claimKey key value path
  | .edge p =>
      match (Keys.edge p).attribute? key with
      | some (subject, a) => attributeValue r.mode subject (some a) key value path
      | none => r.suffixedKey (.edge p) key value path
  | .node e =>
      match (Keys.node e).attribute? key with
      | some (subject, a) => attributeValue r.mode subject (some a) key value path
      | none =>
          match e.relationship? key with
          | some relationship => r.relationshipValue below relationship key value path
          | none =>
              match ← r.relationshipVariant below e key value path with
              | some c => return some c
              | none => r.suffixedKey (.node e) key value path

/-- The conditions in the items of a connective. -/
def operands (below : Level) (keys : Keys) (value : Doc) (path : String) :
    Result (List Condition) :=
  match value with
  | .list items => do
      let found ← (indexed items).mapM fun (index, item) => do
        let here := itemPath path index
        let members ← asRecord item here
        below keys members here
      return found.filterMap id
  | _ => .error (.argument path .expectedList)

/-- One entry of an object. -/
def entry (r : Reader) (below : Level) (keys : Keys) (path key : String) (value : Doc) :
    Keyed (List Condition) := do
  let here := childPath path key
  match key with
  | "AND" => do
      let cs ← (operands below keys value here : Result (List Condition))
      return if cs.isEmpty then [] else [.all cs]
  | "OR" => do
      let cs ← (operands below keys value here : Result (List Condition))
      return if cs.isEmpty then [] else [.any cs]
  | "NOT" => do
      let members ← (asRecord value here : Result Doc.Members)
      let inner ← (below keys members here : Result (Option Condition))
      return (inner.map Condition.not).toList
  | _ => do
      let c ← r.fieldKey below keys key value here
      return c.toList

def entries (r : Reader) (below : Level) (keys : Keys) (path : String) :
    Doc.Members → Keyed (List Condition)
  | [] => return []
  | (key, value) :: rest => do
      let cs ← r.entry below keys path key value
      let more ← r.entries below keys path rest
      return cs ++ more

/-- An object whose records nest at most this deep. -/
def conditionAt (r : Reader) : Nat → Level
  | 0, _, _, _ => .ok none
  | depth + 1, keys, members, path => do
      let (parts, _) ← (r.entries (r.conditionAt depth) keys path members).run []
      return Condition.allOf parts

/-- The condition that an object stands for; none when it constrains nothing. -/
def condition (r : Reader) (keys : Keys) (members : Doc.Members) (path : String) :
    Result (Option Condition) :=
  r.conditionAt (Doc.membersHeight members) keys members path

end Reader

namespace Setup

/-- The condition of an object in a request. -/
def requested (s : Setup) (keys : Keys) (members : Option Doc.Members) (path : String) :
    Result (Option Condition) :=
  match members with
  | none => .ok none
  | some members => Reader.condition ⟨s, false⟩ keys members path

/-- The condition of a `where` argument over an entity. -/
def whereCondition (s : Setup) (e : Entity) (members : Option Doc.Members) (path : String) :
    Result (Option Condition) :=
  s.requested (.node e) members (childPath path "where")

/-- The condition of a rule, in which claims are used. -/
def ruled (s : Setup) (keys : Keys) (members : Doc.Members) (path : String) :
    Result (Option Condition) :=
  Reader.condition ⟨s, true⟩ keys members path

end Setup

end GraphSelection.Resolve
