import Linearization.Expr.Decomposition
import Linearization.Expr.Traversal
import Linearization.Ilp.Arithmetic
import Linearization.Ilp.Choice
import Linearization.Ilp.Clause
import Linearization.Ilp.Coerce
import Linearization.Translation.Draft

/-!
# Values of expressions

`lower` gives the lowered value of an expression: integers become affine forms, truth values become
literals, and a comparison stays a relation until it is needed as a value. Every subexpression is
brought into the form in which it is used before the next one is looked at.

A boolean global is the conjunction of its decomposition, lowered one level deeper. What the deeper
level does is a parameter, so the recursion here is on the expression alone.
-/

namespace Linearization

/-- How the next level of decomposition lowers and imposes. -/
structure Deeper where
  lower : Expr → Translate Lowered
  impose : Expr → List Literal → Translate Unit

namespace Translate

/-- The constraints of a global, with all their variables registered, and the level that they belong
to. Without a level left the nesting limit is exceeded. -/
def expand (limit : Nat) (deeper : Option Deeper) (g : Global) :
    Translate (Deeper × List Expr) := do
  match deeper with
  | none => throw (.decompositionDepth (.global g) limit)
  | some level =>
    match g.decompose (← get).program.columns.size with
    | none => throw (.untranslatable (.global g) (.noDecomposition g.name))
    | some d =>
      registerAll (d.newVars ++ varsOf d.constraints)
      modify (·.logged g)
      return (level, d.constraints)

/-- The literal of a boolean global. -/
def reifyGlobal (limit : Nat) (deeper : Option Deeper) (g : Global) : Translate Lowered := do
  let (level, constraints) ← expand limit deeper g
  let conjunction := Expr.all constraints
  let l ← nested do
    let value ← level.lower conjunction
    build conjunction (Lowering.literalOf value)
  return .literal l

/-- The smallest interval with the bounds of every form; `none` if there are no forms. -/
def hull (p : Ilp) : List Affine → Except LoweringError (Option (Int × Int))
  | [] => return none
  | e :: es => do
    let (lower, upper) ← p.bounds e
    match ← hull p es with
    | none => return some (lower, upper)
    | some (l, u) => return some (min lower l, max upper u)

/-- Refuse an operator with the wrong number of arguments. -/
def checkArity (o : Operator) (args : List Expr) : Translate Unit :=
  match o.arity with
  | some expected =>
    if args.length = expected then return ()
    else throw (.untranslatable (.op o args) (.arity o expected args.length))
  | none => return ()

/-- The value of an arithmetic operator whose arguments have the given forms. -/
def arithmetic (o : Operator) (args : List Expr) (forms : List Affine) : Translate Affine :=
  let e := Expr.op o args
  match o, forms with
  | .neg, [a] => build e (Lowering.ofExcept a.negated)
  | .abs, [a] => build e (Lowering.absolute a)
  | .sub, [a, b] => build e (Lowering.ofExcept (a.minus b))
  | .mul, [a, b] => build e (Lowering.product a b)
  | .div, [a, b] => build e (Lowering.quotient a b)
  | .mod, [a, b] => build e (Lowering.remainder a b)
  | .pow, [a, b] =>
    match b.asConstant with
    | some exponent => build e (Lowering.power a exponent)
    | none => throw (.untranslatable e (.variableExponent (args.getD 1 (.const 0))))
  | .sum, _ => build e (Lowering.ofExcept (forms.foldlM Affine.plus (.const 0)))
  | _, _ => throw (.fault (.missingArgument forms.length))

/-- The literal of a connective whose arguments are the given literals. Inside a value there is no
guard to put the antecedent of an implication under, so it is the disjunction of its complement and
the consequent. -/
def connective (o : Operator) (literals : List Literal) : Lowering Literal :=
  match o, literals with
  | .and, ls => Lowering.conjunction ls
  | .or, ls => Lowering.disjunction ls
  | .implies, [a, b] => Lowering.disjunction [a.negate, b]
  | _, ls => throw (.fault (.missingArgument ls.length))

/-- The item of an array: directly for a constant index, and otherwise as a new column. Every value
that the bounds of the index leave open has to be a position. -/
def selectItem (e : Expr) (index : Affine) (items : List Affine) : Translate Lowered := do
  match index.asConstant with
  | some position =>
    match itemAt? items position with
    | some item => return .ofAffine item
    | none => throw (.untranslatable e (.indexOutOfRange position))
  | none =>
    match ← build e (do hull (← get) items) with
    | none => throw (.untranslatable e .emptyArray)
    | some (lower', upper') =>
      let last := items.length - 1
      let (first, final) ← build e (Lowering.bounds index)
      if first < 0 ∨ final > last then
        throw (.untranslatable e (.indexDomain first final last))
      else
        let target ← build e (Lowering.auxiliaryInt "element" lower' upper')
        build e (Lowering.enforceElement index items (.ofColumn target) [])
        return .column target

/-- The smallest or the largest of several forms, as a new column. -/
def extremum (kind : GlobalKind) (args : List Expr) (forms : List Affine) : Translate Lowered := do
  let e := Expr.global (.plain kind args)
  match ← build e (do hull (← get) forms) with
  | none => throw (.untranslatable e .noArguments)
  | some (lower', upper') =>
    let target ← build e (Lowering.auxiliaryInt kind.name lower' upper')
    if kind = .min then
      build e (Lowering.addMinimum (.ofColumn target) forms)
    else
      build e (Lowering.addMaximum (.ofColumn target) forms)
    return .column target

section Levels

variable (limit : Nat) (deeper : Option Deeper)

mutual

/-- The lowered value of an expression. Its variables have to be registered. -/
def lower : Expr → Translate Lowered
  | .const c => return .const c
  | .var v => return (← imageOf v).toLowered
  | .complement v => do
    match ← imageOf v with
    | .bool l => return .literal l.negate
    | .int _ => throw (.untranslatable (.complement v) .complementOfInteger)
  | .list items => return .sequence (← lowerAll items)
  | .op o args => do
    checkArity o args
    match o with
    | .xor => throw (.untranslatable (.op o args) .nestedParity)
    | .and | .or | .implies =>
      let ls ← literals args
      return .literal (← build (.op o args) (connective o ls))
    | _ =>
      let forms ← affines args
      return .ofAffine (← arithmetic o args forms)
  | .compare c lhs rhs => do
    let l ← lower lhs
    let l ← build lhs (Lowering.affineOf l)
    let r ← lower rhs
    let r ← build rhs (Lowering.affineOf r)
    return .relation ⟨l, c, r⟩
  | .element array index => do
    let i ← lower index
    let i ← build index (Lowering.affineOf i)
    let items ← affines array
    selectItem (.element array index) i items
  | .global g => lowerGlobal g
  termination_by structural e => e

/-- The lowered value of a global: of a count the sum of the equalities, of an extremum a column,
and of a constraint a literal. -/
def lowerGlobal : Global → Translate Lowered
  | .plain kind args => do
    match kind with
    | .min | .max =>
      let forms ← affines args
      extremum kind args forms
    | _ => reifyGlobal limit deeper (.plain kind args)
  | .count args value => do
    let hits ← equalities value (lower value) args
    let total := Expr.sum (args.map fun a => a.equals value)
    return .ofAffine (← build total (Lowering.ofExcept (hits.foldlM Affine.plus (.const 0))))
  | .cardinality args values counts =>
    reifyGlobal limit deeper (.cardinality args values counts)
  | .named name args => reifyGlobal limit deeper (.named name args)
  | .defined name args constraints newVars =>
    reifyGlobal limit deeper (.defined name args constraints newVars)
  termination_by structural g => g

/-- The lowered values of several expressions. -/
def lowerAll : List Expr → Translate (List Lowered)
  | [] => return []
  | e :: es => do
    let v ← lower e
    let vs ← lowerAll es
    return v :: vs
  termination_by structural es => es

/-- The affine forms of several expressions. -/
def affines : List Expr → Translate (List Affine)
  | [] => return []
  | e :: es => do
    let v ← lower e
    let form ← build e (Lowering.affineOf v)
    let forms ← affines es
    return form :: forms
  termination_by structural es => es

/-- The literals of several expressions. -/
def literals : List Expr → Translate (List Literal)
  | [] => return []
  | e :: es => do
    let v ← lower e
    let l ← build e (Lowering.literalOf v)
    let ls ← literals es
    return l :: ls
  termination_by structural es => es

/-- For each of several expressions, the form of the truth value of its equality with one value. The
value is lowered anew each time. -/
def equalities (value : Expr) (lowerValue : Translate Lowered) :
    List Expr → Translate (List Affine)
  | [] => return []
  | e :: es => do
    let l ← lower e
    let l ← build e (Lowering.affineOf l)
    let r ← lowerValue
    let r ← build value (Lowering.affineOf r)
    let hit ← build (e.equals value) (Lowering.affineOf (.relation ⟨l, .eq, r⟩))
    let hits ← equalities value lowerValue es
    return hit :: hits
  termination_by structural es => es

end

/-- The affine form of an expression. -/
def affine (e : Expr) : Translate Affine := do
  let v ← lower limit deeper e
  build e (Lowering.affineOf v)

/-- The literal of an expression. -/
def literal (e : Expr) : Translate Literal := do
  let v ← lower limit deeper e
  build e (Lowering.literalOf v)

end Levels

end Translate

end Linearization
