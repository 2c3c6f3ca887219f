import GraphSelection.Cypher.Basic
import GraphSelection.Schema.Model

/-!
Patterns over relationships, and clause lists that follow a change.
-/
namespace GraphSelection.Program

open GraphSelection Cypher

/-- From a bound node over a relationship, in the direction the relationship has. -/
def traversal (start : String) (r : Relationship) (edge : String) (stop : NodePattern) : Pattern :=
  let arrow := match r.direction with
    | .outgoing => Arrow.right
    | .incoming => Arrow.left
    | .either => Arrow.undirected
  Pattern.step (NodePattern.bound start) ⟨some edge, some r.graphType, arrow⟩ stop

/-- A new relationship between bound nodes; without a direction it is created outgoing. -/
def connection (start : String) (r : Relationship) (edge stop : String) : Pattern :=
  let arrow := match r.direction with
    | .incoming => Arrow.left
    | .outgoing | .either => Arrow.right
  Pattern.step (NodePattern.bound start) ⟨some edge, some r.graphType, arrow⟩
    (NodePattern.bound stop)

/-- The node of a scope with the labels of its entity. -/
def labelled (name : String) (e : Entity) : Pattern :=
  Pattern.node (NodePattern.named name e.labels)

def isWriting : Clause → Bool
  | .set _ | .create _ | .merge _ | .delete _ _ => true
  | _ => false

def isReading : Clause → Bool
  | .call _ _ | .matching _ _ _ | .unwind _ _ => true
  | _ => false

/-- Puts clauses one after the other; reading after writing starts with a new `WITH`. -/
def andThen (before after : List Clause) : List Clause :=
  if before.getLast?.any isWriting && after.head?.any isReading then
    before ++ Clause.carryAll :: after
  else before ++ after

end GraphSelection.Program
