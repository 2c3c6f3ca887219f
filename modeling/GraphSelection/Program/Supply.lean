import GraphSelection.Cypher.Basic
import GraphSelection.Failure
import GraphSelection.Schema.Scalar
import GraphSelection.Document.Basic

/-!
The supply of names and parameters of one program. A single counter numbers all names, so that no
two of them are equal, whatever they are for.
-/
namespace GraphSelection.Program

open GraphSelection Cypher

structure Supply where
  next : Nat := 0
  /-- Parameters in the order in which they were made. -/
  params : Entries Doc := []

/-- Building a part of a program: names and parameters are drawn, or the whole fails. -/
abbrev Build := StateT Supply (Except Failure)

/-- The name for a hint at the current count. -/
def Supply.name (s : Supply) (hint : String) : String := hint ++ toString s.next

/-- A new name. -/
def fresh (hint : String) : Build String := fun s =>
  .ok (s.name hint, { s with next := s.next + 1 })

/-- A new parameter with a value. -/
def param (value : Doc) : Build Expr := fun s =>
  let name := s.name "param"
  .ok (.param name, { next := s.next + 1, params := s.params ++ [(name, value)] })

/-- Applies the constructor of a kind, where it has one. -/
def construct (kind : Option ScalarKind) (e : Expr) : Expr :=
  match kind.bind ScalarKind.constructor? with
  | some function => .apply function [e]
  | none => e

/-- Applies the constructor of a kind to each element of a list. -/
def constructEach (kind : Option ScalarKind) (e : Expr) : Expr :=
  match kind.bind ScalarKind.constructor? with
  | some function => .comprehension "value" e (.apply function [.var "value"])
  | none => e

/-- A parameter for a value of a kind. -/
def typedParam (value : Doc) (kind : Option ScalarKind) : Build Expr := do
  return construct kind (← param value)

/-- A parameter for a list of values of a kind. -/
def typedListParam (value : Doc) (kind : Option ScalarKind) : Build Expr := do
  return constructEach kind (← param value)

def fail {α : Type} (f : Failure) : Build α := fun _ => .error f

end GraphSelection.Program
