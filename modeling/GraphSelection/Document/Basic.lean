import GraphSelection.Decimal.Unsigned
import GraphSelection.Document.Entries

/-!
Free-form data: what requests, schema definitions, claims and parameters are made of. The members
of a record keep the order in which they were written, since that order decides which name a
binding gets and which of two faults is reported.
-/
namespace GraphSelection

inductive Doc where
  | null
  | bool (value : Bool)
  /-- Whole numbers between -2^63 and 2^64 - 1. -/
  | int (value : Int)
  | float (value : Float)
  | text (value : String)
  /-- A scalar without quotes whose kind depends on where it stands. -/
  | plain (written : String)
  | list (items : List Doc)
  | record (members : List (String × Doc))
  deriving Inhabited

namespace Doc

abbrev Members := Entries Doc

def isNull : Doc → Bool
  | .null => true
  | _ => false

def isList : Doc → Bool
  | .list _ => true
  | _ => false

def asRecord? : Doc → Option Members
  | .record members => some members
  | _ => none

def asText? : Doc → Option String
  | .text s => some s
  | _ => none

/-- A whole number that fits in 64 bits without a sign. -/
def asCount? : Doc → Option Nat
  | .int n => if 0 ≤ n ∧ n < Decimal.word64 then some n.toNat else none
  | _ => none

def ofCount (n : Nat) : Doc := .int n

def ofOption (f : α → Doc) : Option α → Doc
  | none => .null
  | some a => f a

def ofTexts (names : List String) : Doc := .list (names.map .text)

mutual
/-- How many records stand inside one another. -/
def height : Doc → Nat
  | .list items => itemsHeight items
  | .record members => membersHeight members
  | _ => 0
def itemsHeight : List Doc → Nat
  | [] => 0
  | item :: rest => max item.height (itemsHeight rest)
/-- A record without members has height zero: there is nothing to read in it. -/
def membersHeight : List (String × Doc) → Nat
  | [] => 0
  | (_, value) :: rest => max (value.height + 1) (membersHeight rest)
end

end Doc

end GraphSelection
