import Linearization.Proofs.Expr.Induction
import Linearization.Proofs.Translation.Steps
import Linearization.Translation.Basic

/-!
# The recursion of translations

Lowering and imposing call each other: for subexpressions, for the sum of equalities that a count is
replaced by, and one level deeper for the members of a decomposition, which are no subexpressions
and may be larger. `Deeper.call` is one such call, with what it calls as a parameter: nothing in it
is recursive, and the nesting limit is compared with the depth of the draft. `unrolled` is the
recursion unrolled so many calls deep.
-/

namespace Linearization

namespace Translate

/-- The affine form of an expression that is lowered in the given way. -/
def formBy (lower : Expr → Translate Lowered) (e : Expr) : Translate Affine := do
  let v ← lower e
  build e (Lowering.affineOf v)

/-- The literal of an expression that is lowered in the given way. -/
def literalBy (lower : Expr → Translate Lowered) (e : Expr) : Translate Literal := do
  let v ← lower e
  build e (Lowering.literalOf v)

/-- The constraints of a global, with all their variables registered. -/
def members (g : Global) : Translate (List Expr) := do
  match g.decompose (← get).program.columns.size with
  | none => throw (.untranslatable (.global g) (.noDecomposition g.name))
  | some d =>
    registerAll (d.newVars ++ varsOf d.constraints)
    modify (·.logged g)
    return d.constraints

/-- Work on the members of a global one level deeper, unless the draft is as deep as the limit. -/
def decomposed {α : Type} (limit : Nat) (g : Global) (f : List Expr → Translate α) :
    Translate α := do
  if (← get).depth ≥ limit then
    throw (.decompositionDepth (.global g) limit)
  else
    let constraints ← members g
    nested (f constraints)

/-- The array, the index and the other side of an equality with an item of an array. -/
def itemEquality? : Comparison → Expr → Expr → Option (List Expr × Expr × Expr)
  | .eq, .element array index, other => some (array, index, other)
  | .eq, other, .element array index => some (array, index, other)
  | _, _, _ => none

end Translate

namespace Deeper

open Translate

variable (limit : Nat) (self : Deeper)

/-- Lowering an expression, up to the calls for other expressions. -/
def callLower : Expr → Translate Lowered
  | .const c => return .const c
  | .var v => return (← imageOf v).toLowered
  | .complement v => do
    match ← imageOf v with
    | .bool l => return .literal l.negate
    | .int _ => throw (.untranslatable (.complement v) .complementOfInteger)
  | .list items => return .sequence (← items.mapM self.lower)
  | .op o args => do
    checkArity o args
    match o with
    | .xor => throw (.untranslatable (.op o args) .nestedParity)
    | .and | .or | .implies =>
      let ls ← args.mapM (literalBy self.lower)
      return .literal (← build (.op o args) (connective o ls))
    | _ =>
      let forms ← args.mapM (formBy self.lower)
      return .ofAffine (← arithmetic o args forms)
  | .compare c lhs rhs => do
    let l ← formBy self.lower lhs
    let r ← formBy self.lower rhs
    return .relation ⟨l, c, r⟩
  | .element array index => do
    let i ← formBy self.lower index
    let items ← array.mapM (formBy self.lower)
    selectItem (.element array index) i items
  | .global (.plain .min args) => do extremum .min args (← args.mapM (formBy self.lower))
  | .global (.plain .max args) => do extremum .max args (← args.mapM (formBy self.lower))
  | .global g =>
    match g.valueDecomposition with
    | some value => self.lower value
    | none =>
      .literal <$> decomposed limit g fun constraints => literalBy self.lower (.all constraints)

/-- The literal of an expression as a clause. -/
def callImposeLiteral (e : Expr) (guards : List Literal) : Translate Unit := do
  let l ← literalBy self.lower e
  imposeClause e [l] guards

/-- Imposing a comparison, up to the calls for other expressions. -/
def callImposeComparison (c : Comparison) (lhs rhs : Expr) (guards : List Literal) :
    Translate Unit :=
  match itemEquality? c lhs rhs with
  | some (array, index, other) => do
    let index ← formBy self.lower index
    let items ← array.mapM (formBy self.lower)
    let target ← formBy self.lower other
    build (.compare c lhs rhs) (Lowering.enforceElement index items target guards)
  | none => do
    let left ← self.lower lhs
    let right ← self.lower rhs
    match left.pairUp right with
    | some pairs => imposePairs (.compare c lhs rhs) c guards pairs
    | none => throw (.shapeMismatch left.length right.length)

/-- Imposing a global, up to the calls for other expressions. -/
def callImposeGlobal (g : Global) (guards : List Literal) : Translate Unit :=
  match g with
  | .plain .allDifferent args => do
    let forms ← args.mapM (formBy self.lower)
    build (.global g) (Lowering.enforceDistinct guards forms)
  | .plain .min _ | .plain .max _ | .count _ _ => discard (self.lower (.global g))
  | _ => decomposed limit g fun constraints => constraints.forM fun c => self.impose c guards

/-- Imposing an expression, up to the calls for other expressions. -/
def callImpose (e : Expr) (guards : List Literal) : Translate Unit :=
  match e with
  | .const c => if c = 0 then imposeClause (.const c) [] guards else return ()
  | .list items => items.forM fun item => self.impose item guards
  | .compare c lhs rhs => callImposeComparison self c lhs rhs guards
  | .op .implies [a, b] => do
    if guards.isEmpty ∧ a.asBoolLiteral.isSome ∧ b.asBoolLiteral.isSome then
      let antecedent ← literalBy self.lower a
      let consequent ← literalBy self.lower b
      build (.op .implies [a, b]) (Lowering.addImplication antecedent consequent)
    else
      let antecedent ← literalBy self.lower a
      self.impose b (guards ++ [antecedent])
  | .op .and args => args.forM fun arg => self.impose arg guards
  | .op .or args => do
    let ls ← args.mapM (literalBy self.lower)
    imposeClause (.op .or args) ls guards
  | .op .xor args => do
    let ls ← args.mapM (literalBy self.lower)
    build (.op .xor args) (Lowering.addParity ls guards)
  | .global g => callImposeGlobal limit self g guards
  | e => callImposeLiteral self e guards

/-- One call of lowering or imposing, where further calls go to `self`. -/
def call : Deeper := ⟨callLower limit self, callImpose limit self⟩

end Deeper

namespace Translate

/-- The recursion of lowering and imposing, unrolled so many calls deep; calls below that go to
`bottom`. -/
def unrolled (limit : Nat) (bottom : Deeper) : Nat → Deeper
  | 0 => bottom
  | calls + 1 => .call limit (unrolled limit bottom calls)

/-- What no call gets to when enough of them are unrolled. -/
def exhausted : Deeper :=
  ⟨fun _ => throw (.fault (.missingArgument 0)), fun _ _ => throw (.fault (.missingArgument 0))⟩

end Translate

end Linearization
