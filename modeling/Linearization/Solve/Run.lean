import Linearization.Solve.Status
import Linearization.Translation.Basic

/-!
# Solving a model

`solveModel` checks the configuration and the model, translates the model, runs an engine once on
the finished program and writes the values it found back into the slots of the variables. Anything
that fails leaves the slots as they were. The engine runs in a monad of its own, which shows when
and how often it is called.
-/

namespace Linearization

/-- Why a model could not be solved. -/
inductive SolveError where
  | invalidProblem (problems : List Problem)
  | invalidConfig (error : ConfigError)
  | notAvailable (backend : Backend)
  | translation (error : TranslationError)
  | unknownStatus (solver status : String)
  /-- The engine reports a solution without values. -/
  | missingValues (solver : String) (status : Status)

namespace SolveError

def message : SolveError → String
  | invalidProblem problems =>
    let all := "; ".intercalate (problems.map Problem.message)
    s!"Invalid problem: {all}"
  | invalidConfig error => s!"Invalid configuration: {error.message}"
  | notAvailable backend =>
    s!"Solver not available: {backend.displayName} (build with the `{backend.key}` feature)"
  | translation error => error.message
  | unknownStatus solver status => s!"{solver} returned an unhandled status: {status}"
  | missingValues solver status =>
    s!"Solver execution failed: {solver} reported {status.displayName} without an assignment"

end SolveError

/-- The result of a solve call. -/
structure Report where
  solver : String
  status : Status
  runtimeMillis : Nat
  /-- The objective at the values that were written back. -/
  objective : Option Int
  statistics : Statistics

/-- Check configuration and model, and translate the model. -/
def Model.prepare (config : Config) (m : Model) : Except SolveError Translation := do
  config.check.mapError .invalidConfig
  if m.problems.isEmpty then
    (m.translate config).mapError .translation
  else
    throw (.invalidProblem m.problems)

/-- Turn the outcome of an engine into a report, and write its values into the slots of the
variables. -/
def Translation.conclude {α : Type} [Scalar α] (t : Translation) (solver : String)
    (vars : List Var) (outcome : Outcome α) (slots : Slots) :
    Except SolveError Report × Slots :=
  let report (objective : Option Int) : Report :=
    { solver, status := outcome.status, runtimeMillis := outcome.runtimeMillis, objective
      statistics := t.statistics }
  if outcome.status.hasSolution then
    match outcome.values with
    | none => (.error (.missingValues solver outcome.status), slots)
    | some values =>
      let assignment := assignmentOf values
      (.ok (report (t.objectiveValue assignment)), t.writeBack assignment vars slots)
  else
    (.ok (report none), slots)

/-- Solve a model with the engine of the given name. -/
def solveModel {m : Type → Type} [Monad m] {α : Type} [Scalar α] (config : Config) (model : Model)
    (solver : String) (engine : Ilp → m (Except SolveError (Outcome α))) (slots : Slots) :
    m (Except SolveError Report × Slots) := do
  match model.prepare config with
  | .error e => return (.error e, slots)
  | .ok t =>
    match ← engine t.program with
    | .error e => return (.error e, slots)
    | .ok outcome => return t.conclude solver model.vars outcome slots

end Linearization
