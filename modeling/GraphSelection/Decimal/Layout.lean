import GraphSelection.Decimal.Shortest

/-!
Text of a double from its shortest digits. A `Layout` says where positional notation ends on either
side, whether an exponent carries a plus sign and which way an exact tie goes; everything else is
common: an exponent has no idle zeros, and a positional number always has a digit after the point.
-/
namespace GraphSelection.Decimal

structure Layout where
  /-- The least exponent of the leading digit that is written positionally. -/
  least : Int
  /-- The greatest exponent of the leading digit that is written positionally. -/
  greatest : Int
  /-- An exponent from zero on carries a plus sign. -/
  plus : Bool
  tie : Tie

/-- The number without trailing zero digits. -/
def Scaled.strip (s : Scaled) : Nat → Scaled
  | 0 => s
  | n + 1 =>
      if s.digits ≠ 0 ∧ s.digits % 10 = 0 then
        Scaled.strip ⟨s.digits / 10, s.exponent + 1⟩ n
      else s

def zeros (n : Nat) : String := String.ofList (List.replicate n '0')

/-- Digits with a point after the first `whole` of them. -/
def positional (digits : List Char) (lead : Int) : String :=
  if lead < 0 then "0." ++ zeros (-lead - 1).toNat ++ String.ofList digits
  else
    let whole := lead.toNat + 1
    if digits.length ≤ whole then String.ofList digits ++ zeros (whole - digits.length) ++ ".0"
    else String.ofList (digits.take whole) ++ "." ++ String.ofList (digits.drop whole)

def exponentText (plus : Bool) (lead : Int) : String :=
  (if plus ∧ 0 ≤ lead then "e+" else "e") ++ toString lead

def scientific (plus : Bool) (digits : List Char) (lead : Int) : String :=
  match digits with
  | [] => "0.0"
  | [d] => String.ofList [d] ++ exponentText plus lead
  | d :: rest => String.ofList [d] ++ "." ++ String.ofList rest ++ exponentText plus lead

def Layout.magnitude (layout : Layout) (b : Binary) : String :=
  let found := (shortest layout.tie b).strip 17
  let digits := Nat.toDigits 10 found.digits
  let lead := found.exponent + digits.length - 1
  if layout.least ≤ lead ∧ lead ≤ layout.greatest then positional digits lead
  else scientific layout.plus digits lead

/-- The text of a finite double. -/
def Layout.text (layout : Layout) (x : Float) : String :=
  let bits := x.toBits
  let sign := if bits.toNat / Nat.pow 2 63 = 1 then "-" else ""
  match Binary.ofBits? bits with
  | none => sign ++ "0.0"
  | some b => sign ++ layout.magnitude b

/-- Numbers in data documents: positional from 1e-5 up to, not including, 1e16, which is written
`1e+16`. -/
def documentNumber : Layout := { least := -5, greatest := 15, plus := true, tie := .even }

/-- Numbers in query text: positional from 1e-4 up to, not including, 1e16, which is written
`1e16`. -/
def queryNumber : Layout := { least := -4, greatest := 15, plus := false, tie := .up }

end GraphSelection.Decimal
