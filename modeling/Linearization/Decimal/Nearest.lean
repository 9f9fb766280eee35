/-!
# The double nearest to a decimal

`nearestDouble` reads `mantissa * 10 ^ exponent` as the closest double; of two equally close ones it
takes the one with the even significand. The work is exact integer arithmetic.
-/

namespace Linearization.Decimal

/-- The quotient rounded to the nearest integer, a half to the even one. -/
def roundHalfEven (numerator denominator : Nat) : Nat :=
  let q := numerator / denominator
  let r := numerator % denominator
  if 2 * r < denominator then q
  else if denominator < 2 * r then q + 1
  else q + q % 2

/-- The bits of the positive double nearest to a positive quotient. -/
def bitsOfQuotient (numerator denominator : Nat) : Nat :=
  let magnitude : Int := numerator.log2 - denominator.log2
  let shifted (scale : Int) : Nat × Nat :=
    (numerator * Nat.pow 2 (-scale).toNat, denominator * Nat.pow 2 scale.toNat)
  let below := let (n, d) := shifted magnitude; n < d
  let scale := max (if below then magnitude - 53 else magnitude - 52) (-1074)
  let (n, d) := shifted scale
  min ((scale + 1074).toNat * Nat.pow 2 52 + roundHalfEven n d) 0x7ff0000000000000

/-- The double nearest to `mantissa * 10 ^ exponent`, without its sign. -/
def nearestDouble (mantissa : Nat) (exponent : Int) : Float :=
  let digits : Int := (Nat.toDigits 10 mantissa).length
  if mantissa = 0 ∨ exponent + digits < -330 then
    0
  else if exponent + digits > 330 then
    Float.ofBits 0x7ff0000000000000
  else
    let bits := bitsOfQuotient (mantissa * Nat.pow 10 exponent.toNat) (Nat.pow 10 (-exponent).toNat)
    Float.ofBits bits.toUInt64

end Linearization.Decimal
