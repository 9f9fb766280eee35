/-!
# Outcomes of engines

What an engine reports about one run.
-/

namespace Linearization

/-- How a run ended. -/
inductive Status where
  /-- The solution is proven optimal; without an objective, any solution is. -/
  | optimal
  /-- A solution, not proven optimal. -/
  | feasible
  /-- Proven to have no solution. -/
  | unsatisfiable
  deriving DecidableEq, Repr

namespace Status

def displayName : Status → String
  | optimal => "Optimal"
  | feasible => "Feasible"
  | unsatisfiable => "Unsatisfiable"

/-- The run has found values. -/
def hasSolution : Status → Bool
  | optimal | feasible => true
  | unsatisfiable => false

end Status

/-- The report of an engine: a status with solution comes with one value per column. -/
structure Outcome (α : Type) where
  status : Status
  values : Option (Array α)
  runtimeMillis : Nat

end Linearization
