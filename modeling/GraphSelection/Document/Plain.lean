import GraphSelection.Document.Json
import GraphSelection.Text.Blank

/-!
The formats that documents come in, and plain scalars with the kinds they stand for: nothing, truth
values, whole numbers in base ten, sixteen, eight or two, and finite doubles; anything else is text.
A digit string that starts with an idle zero is text. `settle` gives every plain scalar of a
document its kind and merges repeated names, which leaves plain data. What is read of a text in YAML
may open 128 lists and records inside one another; JSON text is limited where it is read, so nothing
is left to count here.
-/
namespace GraphSelection

inductive Format where
  | json
  /-- So many lists and records may still be opened inside one another. -/
  | yaml (levels : Nat)
  deriving DecidableEq

namespace Format

/-- The format of a text in YAML before anything is opened. -/
def yamlText : Format := .yaml 128

/-- The format inside a list or a record; none where no more may be opened. -/
def inner? : Format → Option Format
  | .json => some .json
  | .yaml 0 => none
  | .yaml (levels + 1) => some (.yaml levels)

end Format

namespace Plain

def digitIn? (base : Nat) (c : Char) : Option Nat :=
  match Json.hexDigit? c with
  | some d => if d < base then some d else none
  | none => none

def natural? (base : Nat) (cs : List Char) : Option Nat :=
  if cs.isEmpty then none
  else cs.foldl (fun acc c => acc.bind fun n => (digitIn? base c).map (n * base + ·)) (some 0)

def dropSign : List Char → List Char
  | '+' :: rest => rest
  | '-' :: rest => rest
  | cs => cs

/-- A leading zero with nothing but digits after it. -/
def hasIdleZero (cs : List Char) : Bool :=
  match dropSign cs with
  | '0' :: d :: rest => (d :: rest).all Char.isDigit
  | _ => false

/-- The number after a base mark, or in base ten. -/
def based? : List Char → Option Nat
  | '0' :: 'x' :: digits => natural? 16 digits
  | '0' :: 'o' :: digits => natural? 8 digits
  | '0' :: 'b' :: digits => natural? 2 digits
  | digits => natural? 10 digits

def integer? (cs : List Char) : Option Int :=
  if hasIdleZero cs then none
  else
    match cs with
    | '-' :: rest => (based? rest).map fun n => -(n : Int)
    | '+' :: rest => (based? rest).map fun n => (n : Int)
    | _ => (based? cs).map fun n => (n : Int)

/-- A decimal: digits on at least one side of an optional point, and an optional exponent. -/
def decimal? (cs : List Char) : Option Float :=
  let (negative, rest) := match cs with
    | '-' :: rest => (true, rest)
    | '+' :: rest => (false, rest)
    | _ => (false, cs)
  let whole := rest.takeWhile Char.isDigit
  let (fraction, rest) := match rest.dropWhile Char.isDigit with
    | '.' :: rest => (rest.takeWhile Char.isDigit, rest.dropWhile Char.isDigit)
    | rest => ([], rest)
  if whole.isEmpty && fraction.isEmpty then none
  else
    let digits : Nat := (Json.digitValues (whole ++ fraction)).foldl (fun acc d => acc * 10 + d) 0
    let places : Option Int := match rest with
      | [] => some 0
      | 'e' :: tail | 'E' :: tail =>
          match Json.exponent tail with
          | some (e, []) => some e
          | _ => none
      | _ => none
    places.bind fun e =>
      let scale : Int := max (-100000) (min 100000 (e - fraction.length))
      let x := if scale < 0 then Float.ofScientific digits true scale.natAbs
        else Float.ofScientific digits false scale.natAbs
      if x.isInf then none else some (Json.signed negative x)

/-- What a plain scalar stands for; `none` for a whole number beyond 64 bits. -/
def scalar (s : String) : Option Doc :=
  if s ∈ ["", "~", "null", "Null", "NULL"] then some .null
  else if s ∈ ["true", "True", "TRUE"] then some (.bool true)
  else if s ∈ ["false", "False", "FALSE"] then some (.bool false)
  else if s ∈ [".inf", ".Inf", ".INF", "+.inf", "+.Inf", "+.INF", "-.inf", "-.Inf", "-.INF",
      ".nan", ".NaN", ".NAN"] then some .null
  else
    let cs := s.toList
    let other : Option Doc :=
      if hasIdleZero cs then some (.text s)
      else
        match decimal? cs with
        | some x => some (.float x)
        | none => some (.text s)
    match integer? cs with
    | some n =>
        if -Decimal.word63 ≤ n ∧ n < Decimal.word64 then some (.int n)
        else if -Nat.pow 2 127 ≤ n ∧ n < Nat.pow 2 128 then none
        else other
    | none => other

end Plain

namespace Doc

mutual
/-- The document as plain data. -/
def settle (format : Format) : Doc → Option Doc
  | .plain s => Plain.scalar s
  | .list items =>
      format.inner?.bind fun inner => (settleItems inner items).map .list
  | .record members =>
      format.inner?.bind fun inner =>
        (settleMembers inner members).map fun ms => .record (Entries.merge ms)
  | doc => some doc
def settleItems (format : Format) : List Doc → Option (List Doc)
  | [] => some []
  | item :: rest =>
      match settle format item, settleItems format rest with
      | some x, some xs => some (x :: xs)
      | _, _ => none
def settleMembers (format : Format) : List (String × Doc) → Option (List (String × Doc))
  | [] => some []
  | (key, value) :: rest =>
      match settle format value, settleMembers format rest with
      | some x, some ms => some ((key, x) :: ms)
      | _, _ => none
end

end Doc

end GraphSelection
