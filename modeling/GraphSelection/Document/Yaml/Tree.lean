import GraphSelection.Document.Yaml.Scan

/-!
Documents out of tokens. A text holds one document; one that holds nothing stands for an empty
plain scalar. Repeated keys are kept, and so are plain scalars, since what they stand for depends
on where they are used.
-/
namespace GraphSelection.Yaml

/-- A value that is left out. -/
def nothing : Doc := .plain ""

/-- The text of a key; only scalars are keys. -/
def keyText? : Doc → Option String
  | .plain s => some s
  | .text s => some s
  | _ => none

/-- Tokens before which a value in a block is left out. -/
def endsBlockValue : List Token → Bool
  | .key :: _ | .value :: _ | .blockEnd :: _ => true
  | _ => false

/-- Tokens before which a value in a flow collection is left out. -/
def endsFlowValue : List Token → Bool
  | .comma :: _ | .flowMappingEnd :: _ | .flowSequenceEnd :: _ => true
  | _ => false

/-- A comma stands before every entry of a flow collection but the first. -/
def afterComma (isFirst : Bool) (ts : List Token) : Option (List Token) :=
  if isFirst then some ts
  else
    match ts with
    | .comma :: rest => some rest
    | _ => none

mutual
/-- A node. A sequence that is the value of a key need not be indented. -/
def node (fuel : Nat) (isBlock isValue : Bool) (ts : List Token) : Option (Doc × List Token) :=
  match fuel with
  | 0 => none
  | fuel + 1 =>
      match ts with
      | .scalar true s :: rest => some (.plain s, rest)
      | .scalar false s :: rest => some (.text s, rest)
      | .flowSequenceStart :: rest => (flowItems fuel true rest).map fun (ds, r) => (.list ds, r)
      | .flowMappingStart :: rest =>
          (flowMembers fuel true rest).map fun (ms, r) => (.record ms, r)
      | .entry :: _ =>
          if isBlock && isValue then (openItems fuel ts).map fun (ds, r) => (.list ds, r) else none
      | .sequenceStart :: rest =>
          if isBlock then (blockItems fuel rest).map fun (ds, r) => (.list ds, r) else none
      | .mappingStart :: rest =>
          if isBlock then (blockMembers fuel rest).map fun (ms, r) => (.record ms, r) else none
      | _ => none
/-- The items of a sequence with a block of its own. -/
def blockItems (fuel : Nat) (ts : List Token) : Option (List Doc × List Token) :=
  match fuel with
  | 0 => none
  | fuel + 1 =>
      match ts with
      | .blockEnd :: rest => some ([], rest)
      | .entry :: rest => do
          let (item, rest) ← (match rest with
            | .entry :: _ | .blockEnd :: _ => some (nothing, rest)
            | _ => node fuel true false rest)
          let (items, rest) ← blockItems fuel rest
          return (item :: items, rest)
      | _ => none
/-- The items of a sequence in the block of the key before it. -/
def openItems (fuel : Nat) (ts : List Token) : Option (List Doc × List Token) :=
  match fuel with
  | 0 => none
  | fuel + 1 =>
      match ts with
      | .entry :: rest => do
          let (item, rest) ← (match rest with
            | .entry :: _ => some (nothing, rest)
            | _ => if endsBlockValue rest then some (nothing, rest) else node fuel true false rest)
          let (items, rest) ← openItems fuel rest
          return (item :: items, rest)
      | _ => some ([], ts)
/-- The members of a mapping in a block. -/
def blockMembers (fuel : Nat) (ts : List Token) : Option (List (String × Doc) × List Token) :=
  match fuel with
  | 0 => none
  | fuel + 1 =>
      match ts with
      | .blockEnd :: rest => some ([], rest)
      | .key :: rest => do
          let (key, rest) ← (if endsBlockValue rest then some (nothing, rest)
            else node fuel true true rest)
          let name ← keyText? key
          let (value, rest) ← (match rest with
            | .value :: rest =>
                if endsBlockValue rest then some (nothing, rest) else node fuel true true rest
            | _ => some (nothing, rest))
          let (members, rest) ← blockMembers fuel rest
          return ((name, value) :: members, rest)
      | _ => none
/-- The items of a flow sequence; a single pair is a mapping of one member. -/
def flowItems (fuel : Nat) (isFirst : Bool) (ts : List Token) : Option (List Doc × List Token) :=
  match fuel with
  | 0 => none
  | fuel + 1 =>
      match ts with
      | .flowSequenceEnd :: rest => some ([], rest)
      | _ => do
          let ts ← afterComma isFirst ts
          match ts with
          | .flowSequenceEnd :: rest => some ([], rest)
          | .key :: rest => do
              let (member, rest) ← flowPair fuel rest
              let (items, rest) ← flowItems fuel false rest
              return (.record [member] :: items, rest)
          | _ => do
              let (item, rest) ← node fuel false false ts
              let (items, rest) ← flowItems fuel false rest
              return (item :: items, rest)
/-- The members of a flow mapping. -/
def flowMembers (fuel : Nat) (isFirst : Bool) (ts : List Token) :
    Option (List (String × Doc) × List Token) :=
  match fuel with
  | 0 => none
  | fuel + 1 =>
      match ts with
      | .flowMappingEnd :: rest => some ([], rest)
      | _ => do
          let ts ← afterComma isFirst ts
          match ts with
          | .flowMappingEnd :: rest => some ([], rest)
          | .key :: rest => do
              let (member, rest) ← flowPair fuel rest
              let (members, rest) ← flowMembers fuel false rest
              return (member :: members, rest)
          | _ => do
              let (key, rest) ← node fuel false false ts
              let name ← keyText? key
              let (members, rest) ← flowMembers fuel false rest
              return ((name, nothing) :: members, rest)
/-- A key and its value in a flow collection. -/
def flowPair (fuel : Nat) (ts : List Token) : Option ((String × Doc) × List Token) :=
  match fuel with
  | 0 => none
  | fuel + 1 => do
      let (key, rest) ← (match ts with
        | .value :: _ => some (nothing, ts)
        | _ => if endsFlowValue ts then some (nothing, ts) else node fuel false false ts)
      let name ← keyText? key
      let (value, rest) ← (match rest with
        | .value :: rest =>
            if endsFlowValue rest then some (nothing, rest) else node fuel false false rest
        | _ => some (nothing, rest))
      return ((name, value), rest)
end

/-- What may follow the only document of a text. -/
def isEnd (ts : List Token) : Bool := ts.all (· == .documentEnd)

/-- The document of a text. -/
def read (text : String) : Option Doc := do
  let ts ← tokens? text
  let body := match ts.dropWhile (· == .documentEnd) with
    | .documentStart :: rest => rest
    | rest => rest
  if isEnd body then some nothing
  else
    let (doc, rest) ← node (3 * (body.length + 1)) true false body
    if isEnd rest then some doc else none

end GraphSelection.Yaml
