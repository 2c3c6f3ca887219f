/-!
Octets in base 64: groups of four letters for three octets, the last group filled up with equals
signs. Decoding takes canonical text only: the filling must be there, and the bits of the last
letter that no octet uses must be zero.
-/
namespace GraphSelection.Text.Base64

def sextet? (c : Char) : Option Nat :=
  if c.isUpper then some (c.toNat - 'A'.toNat)
  else if c.isLower then some (c.toNat - 'a'.toNat + 26)
  else if c.isDigit then some (c.toNat - '0'.toNat + 52)
  else if c = '+' then some 62
  else if c = '/' then some 63
  else none

def letter (n : Nat) : Char :=
  if n < 26 then Char.ofNat ('A'.toNat + n)
  else if n < 52 then Char.ofNat ('a'.toNat + (n - 26))
  else if n < 62 then Char.ofNat ('0'.toNat + (n - 52))
  else if n = 62 then '+'
  else '/'

def encode : List Nat → List Char
  | [] => []
  | [x] => [letter (x / 4), letter (x % 4 * 16), '=', '=']
  | [x, y] => [letter (x / 4), letter (x % 4 * 16 + y / 16), letter (y % 16 * 4), '=']
  | x :: y :: z :: rest =>
      letter (x / 4) :: letter (x % 4 * 16 + y / 16) :: letter (y % 16 * 4 + z / 64) ::
        letter (z % 64) :: encode rest

def decode : List Char → Option (List Nat)
  | [] => some []
  | [a, b, '=', '='] => do
      let i ← sextet? a
      let j ← sextet? b
      if j % 16 = 0 then some [i * 4 + j / 16] else none
  | [a, b, c, '='] => do
      let i ← sextet? a
      let j ← sextet? b
      let k ← sextet? c
      if k % 4 = 0 then some [i * 4 + j / 16, j % 16 * 16 + k / 4] else none
  | a :: b :: c :: d :: rest => do
      let i ← sextet? a
      let j ← sextet? b
      let k ← sextet? c
      let l ← sextet? d
      let octets ← decode rest
      some ((i * 4 + j / 16) :: (j % 16 * 16 + k / 4) :: (k % 4 * 64 + l) :: octets)
  | _ => none

end GraphSelection.Text.Base64
