import Linearization.Translation.Value

/-!
# Imposed constraints

`impose` states that an expression holds whenever every guard is true. The guards are the
antecedents of the implications around the expression; a conjunction, a list and a decomposition
hand them on to their members. Equality with an array element and all-different have a form of their
own; everything else that is not a comparison is imposed as its literal.

`lowerWithin` and `imposeWithin` tie the levels of decomposition together, as many as are left.
-/

namespace Linearization.Translate

section Levels

variable (limit : Nat) (deeper : Option Deeper)

/-- Some of the literals is true whenever every guard is true. -/
def imposeClause (e : Expr) (literals guards : List Literal) : Translate Unit :=
  build e (Lowering.addClause literals guards)

/-- Both sides of every pair stand in the relation whenever every guard is true. -/
def imposePairs (e : Expr) (c : Comparison) (guards : List Literal) :
    List (Lowered × Lowered) → Translate Unit
  | [] => return ()
  | (l, r) :: rest => do
    let l ← build e (Lowering.affineOf l)
    let r ← build e (Lowering.affineOf r)
    build e (Lowering.enforce ⟨l, c, r⟩ guards)
    imposePairs e c guards rest

/-- The item of the array at the index equals another value whenever every guard is true. -/
def imposeElement (e : Expr) (array : List Expr) (index other : Expr) (guards : List Literal) :
    Translate Unit := do
  let index ← affine limit deeper index
  let items ← affines limit deeper array
  let target ← affine limit deeper other
  build e (Lowering.enforceElement index items target guards)

/-- A comparison, item by item where a side is a list. -/
def imposeItemwise (c : Comparison) (lhs rhs : Expr) (guards : List Literal) : Translate Unit := do
  let left ← lower limit deeper lhs
  let right ← lower limit deeper rhs
  match left.pairUp right with
  | some pairs => imposePairs (.compare c lhs rhs) c guards pairs
  | none => throw (.shapeMismatch left.length right.length)

/-- A comparison under guards. -/
def imposeComparison (c : Comparison) (lhs rhs : Expr) (guards : List Literal) : Translate Unit :=
  match c, lhs, rhs with
  | .eq, .element array index, other =>
    imposeElement limit deeper (.compare c lhs rhs) array index other guards
  | .eq, other, .element array index =>
    imposeElement limit deeper (.compare c lhs rhs) array index other guards
  | _, _, _ => imposeItemwise limit deeper c lhs rhs guards

/-- The members of a decomposition, one level deeper. -/
def imposeDecomposition (g : Global) (guards : List Literal) : Translate Unit := do
  let (level, constraints) ← expand limit deeper g
  nested (constraints.forM fun c => level.impose c guards)

/-- A global under guards. A global function only defines its value. -/
def imposeGlobal (g : Global) (guards : List Literal) : Translate Unit :=
  match g with
  | .plain .allDifferent args => do
    let forms ← affines limit deeper args
    build (.global g) (Lowering.enforceDistinct guards forms)
  | .plain .min _ | .plain .max _ | .count _ _ => discard (lowerGlobal limit deeper g)
  | _ => imposeDecomposition limit deeper g guards

/-- The literal of an expression, imposed as a clause. -/
def imposeLiteral (e : Expr) (guards : List Literal) : Translate Unit := do
  let l ← literal limit deeper e
  imposeClause e [l] guards

mutual

/-- The expression holds whenever every guard is true. -/
def impose (e : Expr) (guards : List Literal) : Translate Unit :=
  match e with
  | .var v => imposeLiteral limit deeper (.var v) guards
  | .complement v => imposeLiteral limit deeper (.complement v) guards
  | .const c => if c = 0 then imposeClause (.const c) [] guards else return ()
  | .list items => imposeAll items guards
  | .compare c lhs rhs => imposeComparison limit deeper c lhs rhs guards
  | .op o args =>
    match o, args with
    | .implies, [a, b] => do
      if guards.isEmpty ∧ a.asBoolLiteral.isSome ∧ b.asBoolLiteral.isSome then
        let antecedent ← literal limit deeper a
        let consequent ← literal limit deeper b
        build (.op o args) (Lowering.addImplication antecedent consequent)
      else
        let antecedent ← literal limit deeper a
        impose b (guards ++ [antecedent])
    | .and, args => imposeAll args guards
    | .or, args => do
      let ls ← literals limit deeper args
      imposeClause (.op o args) ls guards
    | .xor, args => do
      let ls ← literals limit deeper args
      build (.op o args) (Lowering.addParity ls guards)
    | o, args => imposeLiteral limit deeper (.op o args) guards
  | .element array index => imposeLiteral limit deeper (.element array index) guards
  | .global g => imposeGlobal limit deeper g guards
  termination_by structural e

/-- Every expression holds whenever every guard is true. -/
def imposeAll (es : List Expr) (guards : List Literal) : Translate Unit :=
  match es with
  | [] => return ()
  | e :: es => do
    impose e guards
    imposeAll es guards
  termination_by structural es

end

end Levels

mutual

/-- The value of an expression with so many levels of decomposition left. -/
def lowerWithin (limit : Nat) : Nat → Expr → Translate Lowered
  | 0, e => lower limit none e
  | levels + 1, e => lower limit (some ⟨lowerWithin limit levels, imposeWithin limit levels⟩) e
  termination_by structural levels => levels

/-- The expression holds whenever every guard is true, with so many levels of decomposition left. -/
def imposeWithin (limit : Nat) : Nat → Expr → List Literal → Translate Unit
  | 0, e, guards => impose limit none e guards
  | levels + 1, e, guards =>
    impose limit (some ⟨lowerWithin limit levels, imposeWithin limit levels⟩) e guards
  termination_by structural levels => levels

end

end Linearization.Translate
