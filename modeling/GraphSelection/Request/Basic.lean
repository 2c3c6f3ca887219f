import GraphSelection.Request.Selection

/-!
Requests: what to do with which entity, under which arguments, and what to give back.
-/
namespace GraphSelection

inductive OperationKind where
  | read
  | connection
  | aggregate
  | create
  | update
  | delete
  deriving DecidableEq, Repr

namespace OperationKind

def table : List (String × OperationKind) :=
  [("read", .read), ("connection", .connection), ("aggregate", .aggregate), ("create", .create),
   ("update", .update), ("delete", .delete)]

def name : OperationKind → String
  | .read => "read"
  | .connection => "connection"
  | .aggregate => "aggregate"
  | .create => "create"
  | .update => "update"
  | .delete => "delete"

end OperationKind

structure Request where
  operation : OperationKind
  entity : String
  args : List (String × Doc) := []
  selection : List Selection := []
  on : Fragments := []

namespace Request

def withArg (r : Request) (name : String) (value : Doc) : Request :=
  { r with args := Entries.put r.args name value }

def select (r : Request) (fields : List Selection) : Request :=
  { r with selection := r.selection ++ fields }

def onType (r : Request) (typeName : String) (fields : List Selection) : Request :=
  { r with on := Entries.put r.on typeName fields }

def decode : Decoder Request := fun format doc => do
  let fs ← Decode.fields ["operation", "entity", "args", "selection", "on"] format doc
  let operation ← Decode.required (Decode.choice OperationKind.table) fs "operation"
  let entity ← Decode.required Decode.text fs "entity"
  let args ← Decode.orElse Decode.freeRecord fs "args" []
  let selection ← Decode.orElse Selection.decodeNested fs "selection" []
  let on ← Decode.orElse Selection.decodeOn fs "on" []
  return { operation, entity, args, selection, on }

def encode (r : Request) : Doc :=
  .record
    [("operation", .text r.operation.name),
     ("entity", .text r.entity),
     ("args", .record r.args),
     ("selection", .list (Selection.encodeList r.selection)),
     ("on", .record (Selection.encodeFragments r.on))]

end Request

end GraphSelection
