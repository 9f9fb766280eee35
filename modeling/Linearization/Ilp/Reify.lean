import Linearization.Ilp.Enforce

/-!
# Truth of relations

`truth` reads off the column bounds whether a relation is decided already; `reify` gives a literal
that is true exactly when the relation holds.
-/

namespace Linearization

namespace Comparison

/-- The truth value of a comparison of an unknown number in `[lower, upper]` with zero, where the
interval decides it. -/
def decided (c : Comparison) (lower upper : Int) : Option Bool :=
  let choose (always never : Bool) : Option Bool :=
    if always then some true else if never then some false else none
  match c with
  | eq => choose (lower = 0 ∧ upper = 0) (lower > 0 ∨ upper < 0)
  | ne => choose (lower > 0 ∨ upper < 0) (lower = 0 ∧ upper = 0)
  | le => choose (upper ≤ 0) (lower > 0)
  | lt => choose (upper < 0) (lower ≥ 0)
  | ge => choose (lower ≥ 0) (upper < 0)
  | gt => choose (lower > 0) (upper ≤ 0)

end Comparison

/-- The truth value of a relation, where the column bounds decide it. -/
def Ilp.truth (p : Ilp) (r : Relation) : Except LoweringError (Option Bool) := do
  let e ← r.difference
  let (lower, upper) ← p.bounds e
  return r.op.decided lower upper

namespace Lowering

/-- A literal that is true exactly when the relation holds. -/
def reify (r : Relation) : Lowering Literal := do
  match ← (← get).truth r with
  | some value => constantLiteral value
  | none =>
    let l ← auxiliaryBool "reif"
    enforce r [l]
    enforce r.negate [l.negate]
    return l

end Lowering

end Linearization
