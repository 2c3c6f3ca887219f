import GraphSelection.Document.Decode
import GraphSelection.Text.Blank

/-!
Who asks: whether the principal is signed in, and the claims made about it.
-/
namespace GraphSelection

structure Principal where
  authenticated : Bool := false
  claims : List (String × Doc) := []

namespace Principal

def anonymous : Principal := {}

/-- Steps down through records, one name at a time. -/
def descend (doc : Doc) : List String → Option Doc
  | [] => some doc
  | name :: rest =>
      match doc with
      | .record members => (Entries.get? members name).bind (descend · rest)
      | _ => none

/-- The claim at a dotted path; a null claim is no claim. -/
def claim? (p : Principal) (path : String) : Option Doc :=
  match descend (.record p.claims) (Text.split path '.') with
  | some .null => none
  | found => found

def decode : Decoder Principal := fun format doc => do
  let fs ← Decode.fields ["authenticated", "claims"] format doc
  let authenticated ← Decode.orElse Decode.bool fs "authenticated" false
  let claims ← Decode.orElse Decode.freeRecord fs "claims" []
  return { authenticated, claims }

def encode (p : Principal) : Doc :=
  .record [("authenticated", .bool p.authenticated), ("claims", .record p.claims)]

end Principal

end GraphSelection
