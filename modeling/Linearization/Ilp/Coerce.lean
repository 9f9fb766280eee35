import Linearization.Ilp.Reify

/-!
# Values as forms and as literals

A lowered value can be used as an integer or as a truth value. A relation is reified for either use.
-/

namespace Linearization.Lowering

/-- The literal of a form whose bounds lie within `[0, 1]`. -/
def booleanView (e : Affine) : Lowering Literal := do
  match ← (← get).literalView e with
  | some l => return l
  | none =>
    let (lower, upper) ← bounds e
    if lower ≥ 0 ∧ upper ≤ 1 then
      reify ⟨e, .eq, .const 1⟩
    else
      throw (.notBoolean lower upper)

/-- The affine form of a value. -/
def affineOf : Lowered → Lowering Affine
  | .const c => return .const c
  | .literal l => return l.toAffine
  | .column i => return .ofColumn i
  | .affine e => return e
  | .relation r => return (← reify r).toAffine
  | .sequence items => throw (.notScalar items.length)

/-- The literal of a value; a constant is true when it is not zero. -/
def literalOf : Lowered → Lowering Literal
  | .const c => constantLiteral (c ≠ 0)
  | .literal l => return l
  | .relation r => reify r
  | .sequence items => throw (.notScalar items.length)
  | .column i => booleanView (.ofColumn i)
  | .affine e => booleanView e

end Linearization.Lowering
