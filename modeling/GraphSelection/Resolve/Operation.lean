import GraphSelection.Resolve.Mutation

/-!
Requests resolved against a schema: the plan of the operation, or why there is none.
-/
namespace GraphSelection.Resolve

open GraphSelection Plan

namespace Setup

def entityOperation (s : Setup) (e : Entity) (kind : OperationKind) (q : Asked) (path : String) :
    Result Operation :=
  let below := s.reader q.selection q.on
  match kind with
  | .read => (s.readOf below (.entity e) none q path).map .lookup
  | .connection => (s.connectionOf below (.entity e) none q path).map .lookup
  | .aggregate => (rootAggregate s e q.args q.selection path).map .aggregate
  | .create => (s.create e q path).map .create
  | .update => (s.update e q path).map .update
  | .delete => (s.delete e q path).map .delete

/-- Composites are only read. -/
def compositeOperation (s : Setup) (c : Composite) (kind : OperationKind) (q : Asked)
    (path : String) : Result Operation :=
  let below := s.reader q.selection q.on
  match kind with
  | .read => (s.readOf below (.composite c) none q path).map .lookup
  | .connection => (s.connectionOf below (.composite c) none q path).map .lookup
  | .aggregate => .error (.aggregation path .compositeAggregate)
  | .create | .update | .delete => .error (.mutation path .compositeMutation)

/-- The plan of a request. -/
def operation (s : Setup) (r : Request) : Result Operation := do
  let q : Asked := ⟨r.args, r.selection, r.on⟩
  match ← ofSchema (s.schema.target r.entity) with
  | .entity e => s.entityOperation e r.operation q r.entity
  | .composite c => s.compositeOperation c r.operation q r.entity

end Setup

end GraphSelection.Resolve
