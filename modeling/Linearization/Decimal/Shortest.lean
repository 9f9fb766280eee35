/-!
# The shortest decimal of a double

`shortest` finds the decimal with the fewest digits that lies so close to a double that reading it
gives the double back; of two of them the nearer one, and at equal distance the larger one. A double
is `significand * 2 ^ scale`, and the decimals that read back as it lie between the midpoints to its
neighbours; the midpoints themselves do if the significand is even. The work is exact integer
arithmetic.
-/

namespace Linearization.Decimal

/-- The numbers that read back as a double, as quotients over one denominator. -/
structure Neighbourhood where
  value : Nat
  lower : Nat
  upper : Nat
  denominator : Nat
  closed : Bool

/-- The neighbourhood of `significand * 2 ^ scale`. Below a power of two the next double is only
half as far away, unless the numbers there have the smallest scale. -/
def Neighbourhood.ofDouble (significand : Nat) (scale : Int) : Neighbourhood :=
  let unit := Nat.pow 2 scale.toNat
  let below := if significand = Nat.pow 2 52 ∧ scale > -1074 then 1 else 2
  { value := 4 * significand * unit
    lower := (4 * significand - below) * unit
    upper := (4 * significand + 2) * unit
    denominator := 4 * Nat.pow 2 (-scale).toNat
    closed := significand % 2 = 0 }

/-- `digits * 10 ^ exponent` over the denominator. -/
def Neighbourhood.scaled (n : Neighbourhood) (digits : Nat) (exponent : Int) : Nat × Nat :=
  (digits * Nat.pow 10 exponent.toNat * n.denominator, Nat.pow 10 (-exponent).toNat)

/-- The decimal reads back. -/
def Neighbourhood.contains (n : Neighbourhood) (digits : Nat) (exponent : Int) : Bool :=
  let (p, q) := n.scaled digits exponent
  if n.closed then n.lower * q ≤ p && p ≤ n.upper * q else n.lower * q < p && p < n.upper * q

/-- The decimal with the given exponent that reads back and is nearest to the value. -/
def Neighbourhood.hit (n : Neighbourhood) (exponent : Int) : Option Nat :=
  let (p, q) := n.scaled 1 exponent
  let below := n.value * q / p
  let nearerAbove := (2 * below + 1) * p ≤ 2 * n.value * q
  match n.contains below exponent, n.contains (below + 1) exponent with
  | true, true => some (if nearerAbove then below + 1 else below)
  | true, false => some below
  | false, true => some (below + 1)
  | false, false => none

/-- The first hit when the exponent goes down. -/
def Neighbourhood.search (n : Neighbourhood) : Nat → Int → Nat × Int
  | 0, exponent => (n.value / n.denominator, exponent)
  | fuel + 1, exponent =>
    match n.hit exponent with
    | some digits => (digits, exponent)
    | none => n.search fuel (exponent - 1)

/-- The fewest digits that read back as `significand * 2 ^ scale`, and their exponent. -/
def shortest (significand : Nat) (scale : Int) : Nat × Int :=
  (Neighbourhood.ofDouble significand scale).search 650 310

/-- A natural number without the point, and the point put before the last `places` digits. -/
def renderPlaces (digits places : Nat) : String :=
  let ds := Nat.toDigits 10 digits
  let padded := List.replicate (places + 1 - ds.length) '0' ++ ds
  let whole := padded.take (padded.length - places)
  let fraction := ((padded.drop (padded.length - places)).reverse.dropWhile (· = '0')).reverse
  String.ofList (if fraction.isEmpty then whole else whole ++ ['.'] ++ fraction)

/-- The shortest text of a double, always without an exponent and without a fraction of zero. -/
def renderDouble (x : Float) : String :=
  let bits := x.toBits.toNat
  let sign := if bits ≥ Nat.pow 2 63 then "-" else ""
  let exponentField : Nat := bits / Nat.pow 2 52 % Nat.pow 2 11
  let fraction := bits % Nat.pow 2 52
  if exponentField = 2047 then
    if fraction = 0 then sign ++ "inf" else "NaN"
  else if exponentField = 0 ∧ fraction = 0 then
    sign ++ "0"
  else
    let (digits, exponent) :=
      if exponentField = 0 then shortest fraction (-1074)
      else shortest (fraction + Nat.pow 2 52) (exponentField - 1075 : Int)
    sign ++ renderPlaces (digits * Nat.pow 10 exponent.toNat) (-exponent).toNat

end Linearization.Decimal
