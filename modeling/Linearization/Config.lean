import Linearization.Decimal.Shortest
import Linearization.Solve.Backend

/-!
# Configuration

The settings of a solve call and what makes them unusable.
-/

namespace Linearization

/-- The settings of a solve call. -/
structure Config where
  backend : Backend := .auto
  /-- How many threads the engine may use. -/
  workers : Nat := 1
  /-- A limit in seconds, for engines that take one. -/
  timeLimit : Option Float := none
  /-- How deep decompositions may be nested. -/
  maxDecompositionDepth : Nat := 32
  /-- The largest domain that is enumerated. -/
  maxDomainEnumeration : Nat := 4096
  verbose : Bool := false

/-- What makes a configuration unusable. -/
inductive ConfigError where
  | noWorkers
  | timeLimit (seconds : Float)
  | noDecompositions
  /-- The document does not hold a configuration. -/
  | unreadable

namespace ConfigError

def message : ConfigError → String
  | noWorkers => "num_workers must be at least 1"
  | timeLimit seconds =>
    let shown := Decimal.renderDouble seconds
    s!"time_limit must be positive, got {shown}"
  | noDecompositions => "max_decomposition_depth must be at least 1"
  | unreadable => "the document holds no configuration"

end ConfigError

namespace Config

/-- The number of workers and the nesting limit are positive, and a time limit is positive and
finite. The first fault in this order is reported: workers, time limit, nesting limit. -/
def check (c : Config) : Except ConfigError Unit := do
  if c.workers = 0 then throw .noWorkers
  match c.timeLimit with
  | some seconds => if !(seconds > 0 && seconds.isFinite) then throw (.timeLimit seconds)
  | none => pure ()
  if c.maxDecompositionDepth = 0 then throw .noDecompositions

end Config

end Linearization
