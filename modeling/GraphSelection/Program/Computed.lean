import GraphSelection.Program.Context
import GraphSelection.Schema.Model

/-!
Values of computed attributes. The statement of the attribute runs in a call of its own, with the
node of the scope under the name `this`.
-/
namespace GraphSelection.Program

open GraphSelection Cypher

/-- `collect`, and its first element unless a list is asked for. -/
def collected (e : Expr) (isList : Bool) : Expr :=
  if isList then .apply "collect" [e] else .apply "head" [.apply "collect" [e]]

/-- The call that brings the value of a computed attribute into `result`. -/
def computedCall (ctx : Context) (a : Attribute) (result : String) : Build Clause :=
  match a.computation with
  | none => fail (.argument a.name .noStatement)
  | some computation => do
      let column ← fresh "this"
      let statement : Clause :=
        .call [ctx.subject]
          [.carryOnly [Column.named (.var ctx.subject) "this"], .raw computation.statement]
      return .call [ctx.subject]
        [statement,
         .carryOnly [Column.named (.var computation.column) column],
         .give (collected (.var column) a.isList) result]

end GraphSelection.Program
