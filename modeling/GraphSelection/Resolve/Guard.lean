import GraphSelection.Plan.Field
import GraphSelection.Resolve.Condition

/-!
Authorization: the rules of an entity and of the attributes that an action touches, as one more
condition of the scope or as validations. Every rule is read on its own.
-/
namespace GraphSelection.Resolve

open GraphSelection Plan

/-- A rule and where it is declared. -/
structure Declared where
  path : String
  rule : Rule

def declaredAt (owner : String) (rules : List Rule) : List Declared :=
  (indexed rules).map fun (index, rule) => ⟨itemPath (childPath owner "authorization") index, rule⟩

/-- The rules of an entity, then those of each attribute. -/
def declaredRules (e : Entity) (attributes : List Attribute) : List Declared :=
  declaredAt e.name e.rules ++
    attributes.flatMap fun a => declaredAt (childPath e.name a.name) a.rules

/-- The condition of one template of a rule. -/
def templateParts (s : Setup) (keys : Keys) (template : Option Doc) (path : String) :
    Result (List Condition) :=
  match template with
  | none => .ok []
  | some doc => do
      let members ← asRecord doc path
      let c ← s.ruled keys members path
      return c.toList

/-- What a rule asks for; none when it constrains nothing. -/
def ruleCondition (s : Setup) (e : Entity) (d : Declared) : Result (Option Condition) := do
  let signedIn : List Condition := if d.rule.needsAuthentication then [.authenticated] else []
  let node ← templateParts s (.node e) d.rule.node (childPath d.path "node")
  let claims ← templateParts s .claims d.rule.claims (childPath d.path "jwt")
  return Condition.allOf (signedIn ++ node ++ claims)

/-- The conditions of the rules that pass a test, in the order of their declaration. -/
def ruleConditions (s : Setup) (e : Entity) (attributes : List Attribute) (test : Rule → Bool) :
    Result (List Condition) := do
  let found ← ((declaredRules e attributes).filter fun d => test d.rule).mapM (ruleCondition s e)
  return found.filterMap id

/-- The filter rules for an action, in conjunction. -/
def guardFilter (s : Setup) (e : Entity) (attributes : List Attribute) (action : Action) :
    Result (Option Condition) := do
  let parts ← ruleConditions s e attributes fun rule =>
    rule.kind == .filter && rule.appliesTo action
  return Condition.allOf parts

/-- The validations for an action at a moment, one for each rule. -/
def guardValidations (s : Setup) (e : Entity) (attributes : List Attribute) (action : Action)
    (moment : Moment) : Result (List Condition) :=
  ruleConditions s e attributes fun rule => rule.appliesAt action moment

/-- A scope that is read: the condition of the request and the rules that guard it. -/
def guardedScope (s : Setup) (e : Entity) (relationship : Option Relationship)
    (asked : List Condition) (attributes : List Attribute) (action : Action) :
    Result Scope := do
  let filter ← guardFilter s e attributes action
  let validations ← guardValidations s e attributes action .before
  return { entity := e
           relationship
           filter := Condition.allOf (asked ++ filter.toList)
           validations }

end GraphSelection.Resolve
