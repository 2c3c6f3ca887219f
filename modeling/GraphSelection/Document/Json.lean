import GraphSelection.Decimal.Layout
import GraphSelection.Decimal.Unsigned
import GraphSelection.Document.Basic

/-!
Documents in JSON. Reading keeps every member of an object as written, repeated names included.
A number without a fraction or an exponent is whole as long as 64 bits hold it; any other is a
double, found by scaling the leading digits that 64 bits hold once by a power of ten.
-/
namespace GraphSelection.Json

/-- What has been read and what is left. -/
abbrev Step (α : Type) := Option (α × List Char)

def isSpace (c : Char) : Bool := c == ' ' || c == '\n' || c == '\r' || c == '\t'

def skip (cs : List Char) : List Char := cs.dropWhile isSpace

def hexDigit? (c : Char) : Option Nat :=
  if c.isDigit then some (c.toNat - '0'.toNat)
  else if 'a' ≤ c ∧ c ≤ 'f' then some (c.toNat - 'a'.toNat + 10)
  else if 'A' ≤ c ∧ c ≤ 'F' then some (c.toNat - 'A'.toNat + 10)
  else none

/-- Where a string stands between two characters. A first half of a surrogate pair is kept until
the second one is complete. -/
inductive StringState where
  | open
  | escape
  | hex (left value : Nat) (high : Option Nat)
  | pairEscape (high : Nat)
  | pairMark (high : Nat)

def shortEscape? : Char → Option Char
  | '"' => some '"'
  | '\\' => some '\\'
  | '/' => some '/'
  | 'b' => some '\x08'
  | 'f' => some '\x0c'
  | 'n' => some '\n'
  | 'r' => some '\r'
  | 't' => some '\t'
  | _ => none

/-- The character of a finished escape, or the state that waits for the second half of a pair. -/
def closeHex (unit : Nat) : Option Nat → Option (Option Char × StringState)
  | none =>
      if 0xD800 ≤ unit ∧ unit < 0xDC00 then some (none, .pairEscape unit)
      else if 0xDC00 ≤ unit ∧ unit < 0xE000 then none
      else some (some (Char.ofNat unit), .open)
  | some high =>
      if 0xDC00 ≤ unit ∧ unit < 0xE000 then
        some (some (Char.ofNat (0x10000 + (high - 0xD800) * 0x400 + (unit - 0xDC00))), .open)
      else none

/-- The rest of a string after its opening quote, the characters read so far in reverse. -/
def stringRest (state : StringState) (acc : List Char) : List Char → Step String
  | [] => none
  | c :: rest =>
      match state with
      | .open =>
          if c = '"' then some (String.ofList acc.reverse, rest)
          else if c = '\\' then stringRest .escape acc rest
          else if c.toNat < 0x20 then none
          else stringRest .open (c :: acc) rest
      | .escape =>
          if c = 'u' then stringRest (.hex 4 0 none) acc rest
          else
            match shortEscape? c with
            | some e => stringRest .open (e :: acc) rest
            | none => none
      | .hex left value high =>
          match hexDigit? c with
          | none => none
          | some d =>
              if left ≤ 1 then
                match closeHex (value * 16 + d) high with
                | none => none
                | some (none, next) => stringRest next acc rest
                | some (some e, next) => stringRest next (e :: acc) rest
              else stringRest (.hex (left - 1) (value * 16 + d) high) acc rest
      | .pairEscape high => if c = '\\' then stringRest (.pairMark high) acc rest else none
      | .pairMark high => if c = 'u' then stringRest (.hex 4 0 (some high)) acc rest else none

/-- The leading digits that fit in 64 bits, and how many places the rest of the number moves
them. -/
structure Leading where
  digits : Nat := 0
  places : Int := 0
  full : Bool := false

def Leading.takeWhole (l : Leading) (d : Nat) : Leading :=
  if l.full then { l with places := l.places + 1 }
  else if l.digits * 10 + d < Decimal.word64 then { l with digits := l.digits * 10 + d }
  else { l with places := l.places + 1, full := true }

def Leading.takeFraction (l : Leading) (d : Nat) : Leading :=
  if l.full then l
  else if l.digits * 10 + d < Decimal.word64 then
    { l with digits := l.digits * 10 + d, places := l.places - 1 }
  else { l with full := true }

def digitValues (cs : List Char) : List Nat := cs.filterMap Decimal.digit?

def tenTo (n : Nat) : Float := Float.ofScientific 1 false n

/-- Scales by a power of ten, in steps of 308 places when there are more. -/
def scale : Nat → Float → Int → Option Float
  | 0, x, _ => some x
  | fuel + 1, x, places =>
      if places.natAbs ≤ 308 then
        if 0 ≤ places then
          let y := x * tenTo places.natAbs
          if y.isInf then none else some y
        else some (x / tenTo places.natAbs)
      else if x == 0 then some x
      else if 0 ≤ places then none
      else scale fuel (x / tenTo 308) (places + 308)

def signed (negative : Bool) (x : Float) : Float := if negative then -x else x

def double (negative : Bool) (l : Leading) : Option Doc :=
  (scale 4 l.digits.toUInt64.toFloat l.places).map fun x => .float (signed negative x)

def whole (negative : Bool) (digits : List Nat) : Option Doc :=
  let n : Nat := digits.foldl (fun acc d => acc * 10 + d) 0
  if negative then
    if n = 0 then some (.float (signed true 0))
    else if n ≤ Decimal.word63 then some (.int (-(n : Int)))
    else double true (digits.foldl Leading.takeWhole {})
  else if n < Decimal.word64 then some (.int n)
  else double false (digits.foldl Leading.takeWhole {})

/-- The exponent of a number, written after its mark. -/
def exponent (cs : List Char) : Step Int :=
  let (negative, digits) := match cs with
    | '-' :: rest => (true, rest)
    | '+' :: rest => (false, rest)
    | rest => (false, rest)
  let ds := digits.takeWhile Char.isDigit
  if ds.isEmpty then none
  else
    let n : Nat := (digitValues ds).foldl (fun acc d => acc * 10 + d) 0
    some (if negative then -(n : Int) else (n : Int), digits.dropWhile Char.isDigit)

def withExponent (negative : Bool) (l : Leading) (e : Int) : Option Doc :=
  if Nat.pow 2 31 ≤ e.natAbs then
    if l.digits ≠ 0 ∧ 0 < e then none else some (.float (signed negative 0))
  else double negative { l with places := l.places + e }

def number (cs : List Char) : Step Doc :=
  let (negative, rest) := match cs with
    | '-' :: rest => (true, rest)
    | rest => (false, rest)
  let ds := rest.takeWhile Char.isDigit
  let afterWhole := rest.dropWhile Char.isDigit
  match ds with
  | [] => none
  | '0' :: _ :: _ => none
  | _ =>
      let lead := (digitValues ds).foldl Leading.takeWhole {}
      match afterWhole with
      | '.' :: fraction =>
          let fs := fraction.takeWhile Char.isDigit
          if fs.isEmpty then none
          else
            let lead := (digitValues fs).foldl Leading.takeFraction { lead with full := false }
            match fraction.dropWhile Char.isDigit with
            | 'e' :: tail | 'E' :: tail =>
                match exponent tail with
                | none => none
                | some (e, rest) => (withExponent negative lead e).map (·, rest)
            | rest => (double negative lead).map (·, rest)
      | 'e' :: tail | 'E' :: tail =>
          match exponent tail with
          | none => none
          | some (e, rest) => (withExponent negative lead e).map (·, rest)
      | rest => (whole negative (digitValues ds)).map (·, rest)

def word (expected : String) (value : Doc) (cs : List Char) : Step Doc :=
  if expected.toList.isPrefixOf cs then some (value, cs.drop expected.toList.length) else none

mutual
/-- Reads a value; `depth` is how many more lists and objects may be opened. -/
def value : Nat → Nat → List Char → Step Doc
  | 0, _, _ => none
  | fuel + 1, depth, cs =>
      match skip cs with
      | '"' :: rest => (stringRest .open [] rest).map fun (s, rest) => (.text s, rest)
      | '[' :: rest =>
          match depth with
          | 0 | 1 => none
          | depth + 1 =>
              match skip rest with
              | ']' :: rest => some (.list [], rest)
              | rest => (items fuel depth rest).map fun (xs, rest) => (.list xs, rest)
      | '\x7b' :: rest =>
          match depth with
          | 0 | 1 => none
          | depth + 1 =>
              match skip rest with
              | '\x7d' :: rest => some (.record [], rest)
              | rest => (members fuel depth rest).map fun (ms, rest) => (.record ms, rest)
      | 't' :: rest => word "true" (.bool true) ('t' :: rest)
      | 'f' :: rest => word "false" (.bool false) ('f' :: rest)
      | 'n' :: rest => word "null" .null ('n' :: rest)
      | rest => number rest
def items : Nat → Nat → List Char → Step (List Doc)
  | 0, _, _ => none
  | fuel + 1, depth, cs =>
      match value fuel depth cs with
      | none => none
      | some (x, rest) =>
          match skip rest with
          | ',' :: rest => (items fuel depth rest).map fun (xs, rest) => (x :: xs, rest)
          | ']' :: rest => some ([x], rest)
          | _ => none
def members : Nat → Nat → List Char → Step (List (String × Doc))
  | 0, _, _ => none
  | fuel + 1, depth, cs =>
      match skip cs with
      | '"' :: rest =>
          match stringRest .open [] rest with
          | none => none
          | some (key, rest) =>
              match skip rest with
              | ':' :: rest =>
                  match value fuel depth rest with
                  | none => none
                  | some (x, rest) =>
                      match skip rest with
                      | ',' :: rest =>
                          (members fuel depth rest).map fun (ms, rest) => ((key, x) :: ms, rest)
                      | '\x7d' :: rest => some ([(key, x)], rest)
                      | _ => none
              | _ => none
      | _ => none
end

/-- The document a JSON text stands for; lists and objects nest at most 127 deep. -/
def read (s : String) : Option Doc :=
  let cs := s.toList
  match value (2 * cs.length + 2) 128 cs with
  | some (doc, rest) => if (skip rest).isEmpty then some doc else none
  | none => none

def hexChar (n : Nat) : Char := Nat.digitChar n

def quoteChar (c : Char) : List Char :=
  match c with
  | '"' => ['\\', '"']
  | '\\' => ['\\', '\\']
  | '\x08' => ['\\', 'b']
  | '\x0c' => ['\\', 'f']
  | '\n' => ['\\', 'n']
  | '\r' => ['\\', 'r']
  | '\t' => ['\\', 't']
  | c =>
      if c.toNat < 0x20 then ['\\', 'u', '0', '0', hexChar (c.toNat / 16), hexChar (c.toNat % 16)]
      else [c]

def quote (s : String) : String := "\"" ++ String.ofList (s.toList.flatMap quoteChar) ++ "\""

mutual
/-- A document on one line, without blanks. -/
def compact : Doc → String
  | .null => "null"
  | .bool b => if b then "true" else "false"
  | .int n => toString n
  | .float x => Decimal.documentNumber.text x
  | .text s => quote s
  | .plain s => quote s
  | .list items => "[" ++ String.intercalate "," (compactItems items) ++ "]"
  | .record members => "\x7b" ++ String.intercalate "," (compactMembers members) ++ "\x7d"
def compactItems : List Doc → List String
  | [] => []
  | item :: rest => compact item :: compactItems rest
def compactMembers : List (String × Doc) → List String
  | [] => []
  | (key, value) :: rest => (quote key ++ ":" ++ compact value) :: compactMembers rest
end

/-- Lines of a bracketed group, two spaces deeper than the brackets. -/
def block (opening closing : String) (margin : String) (lines : List String) : String :=
  if lines.isEmpty then opening ++ closing
  else
    opening ++ "\n" ++ String.intercalate ",\n" (lines.map fun l => margin ++ "  " ++ l) ++
      "\n" ++ margin ++ closing

mutual
/-- A document over several lines, each level two spaces deeper. -/
def pretty (margin : String) : Doc → String
  | .list items => block "[" "]" margin (prettyItems (margin ++ "  ") items)
  | .record members => block "\x7b" "\x7d" margin (prettyMembers (margin ++ "  ") members)
  | doc => compact doc
def prettyItems (margin : String) : List Doc → List String
  | [] => []
  | item :: rest => pretty margin item :: prettyItems margin rest
def prettyMembers (margin : String) : List (String × Doc) → List String
  | [] => []
  | (key, value) :: rest =>
      (quote key ++ ": " ++ pretty margin value) :: prettyMembers margin rest
end

end GraphSelection.Json
