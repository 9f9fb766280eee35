import Linearization.Ilp.Enforce

/-!
# Clauses and connectives

Disjunctions and parities of literals under guards, and the literals of conjunctions and
disjunctions. A clause is the row `1 - sum ≤ 0`; an odd number of true literals is one more than
twice a new integer.
-/

namespace Linearization.Lowering

/-- At least one literal is true whenever every guard is true. -/
def addClause (literals guards : List Literal) : Lowering Unit := do
  let e ← literals.foldlM (fun e l => e.minus l.toAffine) (Affine.const 1)
  enforceNonpositive e guards

/-- The second literal is true if the first is. -/
def addImplication (a b : Literal) : Lowering Unit := addClause [a.negate, b] []

/-- An odd number of literals is true whenever every guard is true. -/
def addParity (literals guards : List Literal) : Lowering Unit := do
  if literals.isEmpty then
    addClause [] guards
  else
    let half ← auxiliaryInt "xor" 0 (((literals.length - 1) / 2 : Nat) : Int)
    let total ← literals.foldlM (fun e l => e.plus l.toAffine) (Affine.const 0)
    let parity ← total.minus (.single half 2)
    enforce ⟨parity, .eq, .const 1⟩ guards

/-- A new literal that is tied to each of the literals by one clause and to all of them by another.
-/
def gate (purpose : String) (single : Literal → Literal → List Literal)
    (whole : Literal → List Literal) (literals : List Literal) : Lowering Literal := do
  let l ← auxiliaryBool purpose
  literals.forM fun k => addClause (single l k) []
  addClause (whole l) []
  return l

/-- A literal that is true exactly when all of them are. -/
def conjunction (literals : List Literal) : Lowering Literal :=
  match literals with
  | [] => constantLiteral true
  | [l] => return l
  | _ => gate "and" (fun all l => [all.negate, l]) (literals.map Literal.negate ++ [·]) literals

/-- A literal that is true exactly when some of them is. -/
def disjunction (literals : List Literal) : Lowering Literal :=
  match literals with
  | [] => constantLiteral false
  | [l] => return l
  | _ => gate "or" (fun any l => [l.negate, any]) (literals ++ [·.negate]) literals

end Linearization.Lowering
