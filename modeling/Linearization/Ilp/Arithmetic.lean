import Linearization.Ilp.Encoding
import Linearization.Ilp.Reify

/-!
# Non-linear arithmetic

Absolute value, product, quotient, remainder and power. Each gives a form that equals the result in
every solution. Quotients are truncated toward zero and a remainder has the sign of the dividend.
-/

namespace Linearization.Lowering

/-- The absolute value. A literal of its own chooses the sign where the bounds leave it open. -/
def absolute (e : Affine) : Lowering Affine := do
  let (lower, upper) ← bounds e
  if lower ≥ 0 then
    return e
  else if upper ≤ 0 then
    e.negated
  else
    let result ← auxiliaryInt "abs" 0 (max upper (← Word.checkedAbs lower))
    let nonnegative ← auxiliaryBool "sign"
    enforce ⟨.ofColumn result, .eq, e⟩ [nonnegative]
    enforce ⟨.ofColumn result, .eq, ← e.negated⟩ [nonnegative.negate]
    return .ofColumn result

/-- A truth value times a form: the form where the literal is true, and zero elsewhere. -/
def literalTimes (l : Literal) (e : Affine) : Lowering Affine := do
  let (lower, upper) ← bounds e
  let result ← auxiliaryInt "mul" (min lower 0) (max upper 0)
  enforce ⟨.ofColumn result, .eq, e⟩ [l]
  enforce ⟨.ofColumn result, .eq, .const 0⟩ [l.negate]
  return .ofColumn result

/-- The result is the multiple of a form by each value, where the literal of that value is true. -/
def multiplyEach (result : Nat) (e : Affine) : Encoding → Lowering Unit
  | [] => return ()
  | (value, l) :: rest => do
    enforce ⟨.ofColumn result, .eq, ← e.scale value⟩ [l]
    multiplyEach result e rest

/-- The product of two forms that both vary. The one with fewer values is encoded. -/
def encodedProduct (a b : Affine) : Lowering Affine := do
  let (aLower, aUpper) ← bounds a
  let (bLower, bUpper) ← bounds b
  let corners := [aLower * bUpper, aUpper * bLower, aUpper * bUpper]
  let lower ← Word.checked (corners.foldl min (aLower * bLower))
  let upper ← Word.checked (corners.foldl max (aLower * bLower))
  let (few, many) :=
    if Word.span aLower aUpper ≤ Word.span bLower bUpper then (a, b) else (b, a)
  let encoding ← encode few
  let result ← auxiliaryInt "mul" lower upper
  multiplyEach result many encoding
  return .ofColumn result

/-- The product of two forms. -/
def product (a b : Affine) : Lowering Affine := do
  match a.asConstant, b.asConstant with
  | some k, _ => b.scale k
  | none, some k => a.scale k
  | none, none =>
    match ← (← get).literalView a with
    | some l => literalTimes l b
    | none =>
      match ← (← get).literalView b with
      | some l => literalTimes l a
      | none => encodedProduct a b

/-- The values that a divisor can take, each with the guard under which it is taken. -/
def divisorCases (b : Affine) : Lowering (List (Int × List Literal)) := do
  match b.asConstant with
  | some value => return [(value, [])]
  | none => return (← encode b).map (fun (value, l) => (value, [l]))

/-- For each divisor, `a = divisor * quotient + remainder` and the remainder is smaller than the
divisor. -/
def divideEach (a : Affine) (quotient remainder : Nat) : List (Int × List Literal) → Lowering Unit
  | [] => return ()
  | (divisor, guards) :: rest => do
    let rebuilt ← (Affine.single quotient divisor).plus (.ofColumn remainder)
    enforce ⟨a, .eq, rebuilt⟩ guards
    let bound ← Word.plain ((← Word.checkedAbs divisor) - 1)
    enforce ⟨.ofColumn remainder, .le, .const bound⟩ guards
    let least ← Word.plain (-bound)
    enforce ⟨.ofColumn remainder, .ge, .const least⟩ guards
    divideEach a quotient remainder rest

/-- The remainder has the sign of the dividend, where the bounds of the dividend leave it open. -/
def alignSign (a : Affine) (lower upper : Int) (remainder : Nat) : Lowering Unit := do
  if lower < 0 ∧ upper > 0 then
    let nonnegative ← reify ⟨a, .ge, .const 0⟩
    enforce ⟨.ofColumn remainder, .ge, .const 0⟩ [nonnegative]
    enforce ⟨.ofColumn remainder, .le, .const 0⟩ [nonnegative.negate]

/-- Quotient and remainder of forms of which one varies. The bounds of the divisor have to exclude
zero, so that the quotient is defined wherever the value is used. -/
def variableDivision (a b : Affine) : Lowering (Affine × Affine) := do
  let (bLower, bUpper) ← bounds b
  if bLower = 0 ∧ bUpper = 0 then
    throw .divisionByZero
  else if bLower ≤ 0 ∧ bUpper ≥ 0 then
    throw (.divisorMayBeZero bLower bUpper)
  else
    let cases ← divisorCases b
    let atLower ← Word.checkedAbs bLower
    let atUpper ← Word.checkedAbs bUpper
    let (aLower, aUpper) ← bounds a
    let largest := max (← Word.checkedAbs aLower) (← Word.checkedAbs aUpper)
    if min atLower atUpper = 0 then
      throw (.fault .zeroDivisor)
    else
      let quotientBound ← Word.plain (largest.tdiv (min atLower atUpper))
      let remainderBound := min (← Word.plain (max atLower atUpper - 1)) largest
      let leastQuotient ← Word.plain (-quotientBound)
      let quotient ← auxiliaryInt "div" leastQuotient quotientBound
      let leastRemainder ← Word.plain (if aLower < 0 then -remainderBound else 0)
      let remainder ← auxiliaryInt "mod" leastRemainder (if aUpper > 0 then remainderBound else 0)
      alignSign a aLower aUpper remainder
      divideEach a quotient remainder cases
      return (.ofColumn quotient, .ofColumn remainder)

/-- Quotient and remainder of two forms. -/
def divide (a b : Affine) : Lowering (Affine × Affine) := do
  match a.asConstant, b.asConstant with
  | some x, some y =>
    if y = 0 then
      throw .divisionByZero
    else
      let quotient ← Word.checked (x.tdiv y)
      return (.const quotient, .const (x.tmod y))
  | _, _ => variableDivision a b

/-- The quotient, truncated toward zero. -/
def quotient (a b : Affine) : Lowering Affine := return (← divide a b).1

/-- The remainder, with the sign of the dividend. -/
def remainder (a b : Affine) : Lowering Affine := return (← divide a b).2

/-- Multiply by the base as often as the count says. -/
def repeatedProduct (base : Affine) : Nat → Affine → Lowering Affine
  | 0, acc => return acc
  | count + 1, acc => do repeatedProduct base count (← product acc base)

/-- The power with a constant exponent from 0 to 63. -/
def power (base : Affine) (exponent : Int) : Lowering Affine := do
  if exponent < 0 ∨ exponent > 63 then
    throw (.badExponent exponent)
  else
    match base.asConstant with
    | some b => return .const (← Word.checked (b.pow exponent.toNat))
    | none => repeatedProduct base exponent.toNat (.const 1)

end Linearization.Lowering
