/-!
Unsigned decimal numerals with an upper bound: an optional plus sign and one or more ASCII digits.
The digits are read from the left, and the first fault met there is the one reported.
-/
namespace GraphSelection.Decimal

inductive NumeralFault where
  | empty
  | invalidDigit
  | tooLarge
  deriving DecidableEq, Repr

def NumeralFault.message : NumeralFault → String
  | .empty => "cannot parse integer from empty string"
  | .invalidDigit => "invalid digit found in string"
  | .tooLarge => "number too large to fit in target type"

def digit? (c : Char) : Option Nat :=
  if c.isDigit then some (c.toNat - '0'.toNat) else none

/-- Reads on from `value`; every number met on the way stays below `bound`. -/
def digitsBelow (bound : Nat) (value : Nat) : List Char → Except NumeralFault Nat
  | [] => .ok value
  | c :: rest =>
      match digit? c with
      | none => .error .invalidDigit
      | some d =>
          if value * 10 + d < bound then digitsBelow bound (value * 10 + d) rest
          else .error .tooLarge

/-- The number below `bound` that a numeral stands for. -/
def unsignedBelow (bound : Nat) (s : String) : Except NumeralFault Nat :=
  match s.toList with
  | [] => .error .empty
  | ['+'] => .error .invalidDigit
  | '+' :: digits => digitsBelow bound 0 digits
  | digits => digitsBelow bound 0 digits

/-- Numbers that fit in 64 bits. -/
def word64 : Nat := Nat.pow 2 64

/-- Numbers that fit in 64 bits beside a sign. -/
def word63 : Nat := Nat.pow 2 63

/-- Numbers that fit in 32 bits. -/
def word32 : Nat := Nat.pow 2 32

end GraphSelection.Decimal
