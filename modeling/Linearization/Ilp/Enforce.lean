import Linearization.Ilp.Basic

/-!
# Guarded relations

`enforce r guards` states that `r` holds whenever every guard is true. An inequality `e ≤ 0` is
relaxed by the largest value of `e` for each guard that is false, which leaves no restriction as
soon as one is. Rows that the column bounds already imply are left out.
-/

namespace Linearization.Lowering

/-- A row that no assignment meets. It stands on the true column, because not every engine takes a
row without terms. -/
def addContradiction : Lowering Unit := do
  let t ← trueLiteral
  addRow ⟨[⟨t.column, 1⟩], none, some 0⟩

/-- A row with the terms of `e`, unless the bounds of `e` imply it. Its upper side is the negated
constant, from which `least` makes the lower one. -/
def addUnlessImplied (implied : Int → Int → Bool) (least : Int → Option Int) (e : Affine) :
    Lowering Unit := do
  let (lower, upper) ← bounds e
  if implied lower upper then
    return ()
  else if e.terms.isEmpty then
    addContradiction
  else
    let side ← Word.checked (-e.constant)
    addRow ⟨e.terms, least side, some side⟩

/-- `e ≤ 0`. -/
def addNonpositive : Affine → Lowering Unit :=
  addUnlessImplied (fun _ upper => upper ≤ 0) fun _ => none

/-- `e = 0`. -/
def addZero : Affine → Lowering Unit :=
  addUnlessImplied (fun lower upper => lower = 0 ∧ upper = 0) some

/-- Subtract `slack` for every guard that is false. -/
def relax (slack : Int) (guards : List Literal) (e : Affine) : Except LoweringError Affine :=
  guards.foldlM (fun e g => do e.minus (← g.negate.toAffine.scale slack)) e

/-- `e ≤ 0` whenever every guard is true. -/
def enforceNonpositive (e : Affine) (guards : List Literal) : Lowering Unit := do
  let (_, upper) ← bounds e
  if upper ≤ 0 then
    return ()
  else
    addNonpositive (← relax upper guards e)

/-- `e ≠ 0` whenever every guard is true. Where the bounds leave both signs open, a new literal
chooses the side. -/
def enforceNonzero (e : Affine) (guards : List Literal) : Lowering Unit := do
  let (lower, upper) ← bounds e
  if lower > 0 ∨ upper < 0 then
    return ()
  else if lower = 0 then
    enforceNonpositive (← (← e.negated).plus (.const 1)) guards
  else if upper = 0 then
    enforceNonpositive (← e.plus (.const 1)) guards
  else
    let below ← auxiliaryBool "ne"
    enforceNonpositive (← e.plus (.const 1)) (guards ++ [below])
    enforceNonpositive (← (← e.negated).plus (.const 1)) (guards ++ [below.negate])

/-- The relation holds whenever every guard is true. -/
def enforce (r : Relation) (guards : List Literal) : Lowering Unit := do
  let e ← r.difference
  match r.op with
  | .le => enforceNonpositive e guards
  | .lt => enforceNonpositive (← e.plus (.const 1)) guards
  | .ge => enforceNonpositive (← e.negated) guards
  | .gt => enforceNonpositive (← (← e.negated).plus (.const 1)) guards
  | .eq =>
    if guards.isEmpty then
      addZero e
    else
      enforceNonpositive e guards
      enforceNonpositive (← e.negated) guards
  | .ne => enforceNonzero e guards

/-- The relation holds. -/
def require (r : Relation) : Lowering Unit := enforce r []

end Linearization.Lowering
