import GraphSelection.Decimal.Unsigned
import GraphSelection.Plan.Ordering
import GraphSelection.Resolve.Argument
import GraphSelection.Text.Base64
import GraphSelection.Text.Blank

/-!
Order and page arguments: `sort`, `limit` and `offset` of a list, directly or inside `options`, and
`sort`, `first` and `after` of a connection. After which edge a page begins is said by a cursor: the
offset of the edge behind a fixed word, in base 64.
-/
namespace GraphSelection.Cursor

def opening : String := "arrayconnection:"

/-- The characters of octets below 128. An octet above them cannot occur in a cursor. -/
def asciiChars? (octets : List Nat) : Option (List Char) :=
  if octets.all (· < 128) then some (octets.map Char.ofNat) else none

/-- The offset a cursor stands for. -/
def offset? (cursor : String) : Option Nat := do
  let octets ← Text.Base64.decode cursor.toList
  let chars ← asciiChars? octets
  let numeral ← Text.dropStart? (String.ofList chars) opening
  (Decimal.unsignedBelow Decimal.word64 numeral).toOption

/-- The cursor of the edge at an offset. -/
def ofOffset (n : Nat) : String :=
  String.ofList (Text.Base64.encode ((opening ++ toString n).toList.map Char.toNat))

end GraphSelection.Cursor

namespace GraphSelection.Resolve

open GraphSelection Plan

def descending (value : Doc) (path : String) : Result Bool :=
  match value.asText? with
  | some "ASC" => .ok false
  | some "DESC" => .ok true
  | _ => .error (.argument path .sortDirection)

/-- Sort keys out of a record of directions. -/
def sortKeys (find : String → Option Attribute) (make : Attribute → SortTarget)
    (members : Doc.Members) (path : String) : Result (List SortKey) :=
  members.mapM fun (name, direction) => do
    let here := childPath path name
    match find name with
    | none => throw (.argument here (.notSortable name))
    | some a => do
        let descending ← descending direction here
        pure { target := make a, descending }

def nodeSort (attributes : Entries Attribute) (members : Doc.Members) (path : String) :
    Result (List SortKey) :=
  sortKeys attributes.get? SortTarget.ofAttribute members path

def nonNull? (doc : Option Doc) : Option Doc := doc.filter fun d => !d.isNull

/-- An argument given directly or inside `options`, with its path. -/
def pick (args : Doc.Members) (options : Option Doc.Members) (name path : String) :
    Result (Option (Doc × String)) :=
  let direct := nonNull? (args.get? name)
  let inside := nonNull? (options.bind fun o => o.get? name)
  match direct, inside with
  | some _, some _ => .error (.filter (childPath path name) (.givenTwice name))
  | some value, none => .ok (some (value, childPath path name))
  | none, some value => .ok (some (value, childPath (childPath path "options") name))
  | none, none => .ok none

def pickCount (args : Doc.Members) (options : Option Doc.Members) (name path : String) :
    Result (Option Nat) := do
  match ← pick args options name path with
  | none => return none
  | some (value, here) => (asCount value here).map some

/-- The page size under a policy. -/
def pageSize (s : Setup) (requested : Option Nat) (policy : Option PagePolicy) : Option Nat :=
  s.settings.effectiveLimit requested (policy.bind PagePolicy.default) (policy.bind PagePolicy.max)

/-- Order and page of a list. Page sizes are only limited for results that are lists. -/
def listArrangement (s : Setup) (attributes : Entries Attribute) (args : Doc.Members)
    (policy : Option PagePolicy) (isList : Bool) (path : String) : Result Arrangement := do
  let options ← recordArg args "options" path
  let sort ← (do
    match ← pick args options "sort" path with
    | none => pure []
    | some (value, here) =>
        let items := match value with
          | .list items => items
          | single => [single]
        let keys ← (indexed items).mapM fun (index, item) => do
          let there := itemPath here index
          let members ← asRecord item there
          nodeSort attributes members there
        pure keys.flatten : Result (List SortKey))
  let offset ← pickCount args options "offset" path
  let requested ← pickCount args options "limit" path
  let limit := if isList then pageSize s requested policy else requested
  return { sort, page := { skip := offset.filter (0 < ·), limit } }

/-- One entry of the order of a connection: node keys, or keys under `node` and `edge`. -/
def connectionSort (node : Entries Attribute) (edge : Option (Entries Attribute))
    (members : Doc.Members) (path : String) : Result (List SortKey) :=
  if members.all fun (key, _) => key == "node" || key == "edge" then do
    let keys ← members.mapM fun (scope, inner) => do
      let here := childPath path scope
      let inner ← asRecord inner here
      if scope = "node" then nodeSort node inner here
      else
        match edge with
        | none => throw (.argument here .noEdgeSort)
        | some edge => sortKeys edge.get? .edge inner here
    return keys.flatten
  else nodeSort node members path

/-- The position after a cursor. -/
def afterCursor (value : Doc) (path : String) : Result Nat :=
  match value.asText?.bind Cursor.offset? with
  | some offset =>
      if offset + 1 < Decimal.word64 then .ok (offset + 1)
      else .error (.argument path .invalidCursor)
  | none => .error (.argument path .invalidCursor)

/-- Order and page of a connection. -/
def connectionArrangement (s : Setup) (node : Entries Attribute)
    (edge : Option (Entries Attribute)) (args : Doc.Members) (policy : Option PagePolicy)
    (path : String) : Result Arrangement := do
  let items ← listArg args "sort" path
  let keys ← (indexed items).mapM fun (index, item) => do
    let here := itemPath (childPath path "sort") index
    let members ← asRecord item here
    connectionSort node edge members here
  let requested ← (match nonNull? (args.get? "first") with
    | none => .ok none
    | some value => (asCount value (childPath path "first")).map some : Result (Option Nat))
  let skip ← (match nonNull? (args.get? "after") with
    | none => .ok none
    | some value => (afterCursor value (childPath path "after")).map some : Result (Option Nat))
  return { sort := keys.flatten, page := { skip, limit := pageSize s requested policy } }

end GraphSelection.Resolve
