import Linearization.Word

/-!
# Scalars

The numbers that an assignment may give to the columns of a program: exact integers, exact
rationals, and the floating-point numbers that an engine reports. Everything that evaluates a
program under an assignment is written once over this interface.
-/

namespace Linearization

/-- Numbers that columns can be assigned. -/
class Scalar (α : Type) extends Add α, Sub α, Mul α where
  /-- The scalar of an integer, or the one nearest to it. -/
  ofInt : Int → α
  /-- Comparison; it is false where a side has no order. -/
  le : α → α → Bool
  /-- The nearest integer, still as a scalar; a half goes away from zero. -/
  round : α → α
  /-- The nearest word; a half goes away from zero. -/
  toWord : α → Int
  /-- How far a value may miss a bound, a side or an integer and still count as meeting it. -/
  tolerance : α

instance : Scalar Int where
  ofInt v := v
  le a b := decide (a ≤ b)
  round v := v
  toWord := Word.clamp
  tolerance := 0

/-- The integer nearest to a rational; a half goes away from zero. -/
def roundHalfAway (q : Rat) : Int :=
  if 0 ≤ q then (q + 1 / 2).floor else (q - 1 / 2).ceil

instance : Scalar Rat where
  ofInt v := v
  le a b := decide (a ≤ b)
  round q := roundHalfAway q
  toWord q := Word.clamp (roundHalfAway q)
  tolerance := 1 / 100000

instance : Scalar Float where
  ofInt := Float.ofInt
  le a b := decide (a ≤ b)
  round := Float.round
  toWord v := v.round.toInt64.toInt
  tolerance := 1e-5

namespace Scalar

@[simp] theorem ofInt_int (v : Int) : Scalar.ofInt v = v := rfl

end Scalar

end Linearization
