/-!
The fewest decimal digits that read back as a given binary fraction. A positive double is
`mantissa * 2 ^ exponent`; every real number between the middles to its two neighbours rounds to
it, the middles themselves when the mantissa is even. For one digit, two digits and so on the two
decimals next to the value on that grid are tried, and the first grid with a hit wins.
-/
namespace GraphSelection.Decimal

/-- A positive binary fraction with the distance to its lower neighbour. -/
structure Binary where
  mantissa : Nat
  exponent : Int
  /-- The lower neighbour is only half as far as the upper one. -/
  narrowBelow : Bool

/-- A decimal `digits * 10 ^ exponent`. -/
structure Scaled where
  digits : Nat
  exponent : Int

/-- Where the middle between two decimals goes. -/
inductive Tie where
  | up
  | even

/-- The magnitude of a finite double; `none` for zero. -/
def Binary.ofBits? (bits : UInt64) : Option Binary :=
  let fraction : Nat := bits.toNat % Nat.pow 2 52
  let stored : Nat := bits.toNat / Nat.pow 2 52 % Nat.pow 2 11
  if stored = 0 then
    if fraction = 0 then none else some ⟨fraction, -1074, false⟩
  else
    some ⟨fraction + Nat.pow 2 52, (stored : Int) - 1075, fraction == 0 && stored != 1⟩

/-- `base ^ e` as a numerator and a denominator, one of which is 1. -/
def powerRatio (base : Nat) (e : Int) : Nat × Nat :=
  if 0 ≤ e then (Nat.pow base e.toNat, 1) else (1, Nat.pow base (-e).toNat)

/-- Four times the value, and four times the ends of its interval, over one denominator. -/
structure Interval where
  low : Nat
  value : Nat
  high : Nat
  denominator : Nat
  closed : Bool

def Binary.interval (b : Binary) : Interval :=
  let (up, down) := powerRatio 2 b.exponent
  { low := (4 * b.mantissa - if b.narrowBelow then 1 else 2) * up
    value := 4 * b.mantissa * up
    high := (4 * b.mantissa + 2) * up
    denominator := 4 * down
    closed := b.mantissa % 2 == 0 }

/-- `point * 10 ^ e` lies in the interval. -/
def Interval.holds (i : Interval) (point : Nat) (e : Int) : Bool :=
  let (up, down) := powerRatio 10 e
  let p := point * up * i.denominator
  let low := i.low * down
  let high := i.high * down
  if i.closed then low ≤ p && p ≤ high else low < p && p < high

/-- The greatest `k` with `10 ^ k` at most the value. -/
def Interval.magnitude (i : Interval) : Int :=
  let bits : Int := (i.value.log2 : Int) - i.denominator.log2
  let guess := Int.fdiv (bits * 30103) 100000
  let reaches (k : Int) : Bool :=
    let (up, down) := powerRatio 10 k
    up * i.denominator ≤ i.value * down
  if reaches (guess + 1) then guess + 1
  else if reaches guess then guess
  else if reaches (guess - 1) then guess - 1
  else guess - 2

/-- The nearest decimal on the grid `10 ^ e` that reads back, if one does. -/
def Interval.onGrid? (i : Interval) (tie : Tie) (e : Int) : Option Scaled :=
  let (up, down) := powerRatio 10 e
  let below := i.value * down / (up * i.denominator)
  let rest := i.value * down - below * (up * i.denominator)
  match i.holds below e, i.holds (below + 1) e with
  | false, false => none
  | true, false => some ⟨below, e⟩
  | false, true => some ⟨below + 1, e⟩
  | true, true =>
      if 2 * rest < up * i.denominator then some ⟨below, e⟩
      else if 2 * rest = up * i.denominator then
        match tie with
        | .up => some ⟨below + 1, e⟩
        | .even => some ⟨if below % 2 = 0 then below else below + 1, e⟩
      else some ⟨below + 1, e⟩

/-- Seventeen digits always read back, so the search needs no more grids. -/
def shortest (tie : Tie) (b : Binary) : Scaled :=
  let i := b.interval
  let k := i.magnitude
  match (List.range 17).findSome? fun n : Nat => i.onGrid? tie (k - (n : Int)) with
  | some found => found
  | none => ⟨0, 0⟩

end GraphSelection.Decimal
