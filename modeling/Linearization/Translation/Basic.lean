import Linearization.Config
import Linearization.Ilp.Solution
import Linearization.Model
import Linearization.Translation.Constraint

/-!
# Translations of models

`Model.translate` registers the variables of a model in the order of their first occurrence, imposes
the constraints in order and installs the objective. The result knows the column of every variable,
so the numbers of an engine can be read back into variables.
-/

namespace Linearization

namespace Translate

/-- The lowered value of an expression under a configuration. -/
def lowerExpr (config : Config) (e : Expr) : Translate Lowered := fun t =>
  lowerWithin config.maxDecompositionDepth (config.maxDecompositionDepth - t.depth) e t

/-- The expression holds whenever every guard is true, under a configuration. -/
def imposeExpr (config : Config) (e : Expr) (guards : List Literal) : Translate Unit := fun t =>
  imposeWithin config.maxDecompositionDepth (config.maxDecompositionDepth - t.depth) e guards t

/-- The objective of the program is that of the model. -/
def installObjective (config : Config) (o : Objective) : Translate Unit := do
  let value ← lowerExpr config o.expr
  build o.expr do
    let e ← Lowering.affineOf value
    Lowering.setObjective o.direction e

/-- Register the variables, impose the constraints, install the objective. -/
def model (config : Config) (m : Model) : Translate Unit := do
  registerAll m.vars
  m.constraints.forM fun c => imposeExpr config c []
  match m.objective with
  | some o => installObjective config o
  | none => return ()

end Translate

/-- The size of a translation; numbers of 32 bits, above which they stay at the largest. -/
structure Statistics where
  userVariables : Nat
  auxiliaryColumns : Nat
  boolColumns : Nat
  rows : Nat
  deriving DecidableEq, Repr

/-- A finished program with the layout of its variables. -/
structure Translation where
  program : Ilp
  layout : Layout
  userVariables : Nat

/-- The translation of a model under a configuration. -/
def Model.translate (config : Config) (m : Model) : Except TranslationError Translation :=
  match Translate.model config m (.start config.maxDomainEnumeration) with
  | .ok _ t => .ok ⟨t.program, t.layout, m.vars.length⟩
  | .error e _ => .error e

namespace Translation

/-- The largest number of a statistic. -/
def countLimit : Nat := 4294967295

def statistics (t : Translation) : Statistics where
  userVariables := min t.userVariables countLimit
  auxiliaryColumns := min (t.program.columns.size - t.userVariables) countLimit
  boolColumns := min t.program.boolColumnCount countLimit
  rows := min t.program.rows.size countLimit

/-- Put the rounded values of the columns into the slots of the variables that have a column. -/
def writeBack {α : Type} [Scalar α] (t : Translation) (values : Nat → α) (vs : List Var)
    (slots : Slots) : Slots :=
  vs.foldl (fun slots v =>
    match t.layout.get? v with
    | some image => slots.set v.toVarKey (image.value values)
    | none => slots) slots

/-- The rounded value of the objective. -/
def objectiveValue {α : Type} [Scalar α] (t : Translation) (values : Nat → α) : Option Int :=
  t.program.objective.map fun (_, e) => Scalar.toWord (e.eval values)

end Translation

end Linearization
