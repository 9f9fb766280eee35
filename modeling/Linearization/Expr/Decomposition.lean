import Linearization.Expr.Basic

/-!
# Decompositions

A global constraint is rewritten into a conjunction of simpler ones. The cycle constraint follows
the successors from node 0 with a variable per step, which no one else knows; the variables are
numbered from the column that the first of them is about to get.
-/

namespace Linearization

/-- A conjunction of constraints, with the variables it introduces. -/
structure Decomposition where
  constraints : List Expr
  newVars : List Var

/-- A binary constraint between each item and each later one. -/
def pairwise (f : Expr → Expr → Expr) : List Expr → List Expr
  | [] => []
  | e :: es => es.map (f e) ++ pairwise f es

/-- A binary constraint between each item and the next. -/
def consecutive (f : Expr → Expr → Expr) (es : List Expr) : List Expr := es.zipWith f es.tail

/-- The node that is visited at a step of a cycle through `size` nodes. -/
def orderVar (firstColumn size step : Nat) : Var where
  serial := .introduced (firstColumn + step)
  domain := .int 0 (size - 1)
  name := s!"circuit_order[{step}]"

/-- The successors lead from node 0 through all nodes and back to node 0. -/
def circuitDecomposition (firstColumn : Nat) (successors : List Expr) : Decomposition :=
  match successors with
  | [] => ⟨[], []⟩
  | first :: _ =>
    let size := successors.length
    let node (step : Nat) : Expr := .var (orderVar firstColumn size step)
    let steps := (List.range size).map (orderVar firstColumn size)
    { constraints :=
        [.global (.plain .allDifferent successors),
          .global (.plain .allDifferent (steps.map .var)),
          (node (size - 1)).equals (.const 0),
          (node 0).equals first] ++
        (List.range (size - 1)).map fun step =>
          (node (step + 1)).equals (.element successors (node step))
      newVars := steps }

namespace Global

/-- An equivalent conjunction of simpler constraints, if one is known. -/
def decompose (firstColumn : Nat) : Global → Option Decomposition
  | plain .allDifferent args => some ⟨pairwise .differs args, []⟩
  | plain .allDifferentExceptZero args =>
    let bothNonzero (a b : Expr) : Expr := .all [a.differs (.const 0), b.differs (.const 0)]
    some ⟨pairwise (fun a b => (bothNonzero a b).implies (a.differs b)) args, []⟩
  | plain .allEqual args => some ⟨consecutive .equals args, []⟩
  | plain .circuit args => some (circuitDecomposition firstColumn args)
  | plain .min _ | plain .max _ | count _ _ => none
  | cardinality args values counts =>
    some ⟨values.zipWith (fun v c => c.equals (.global (count args (.const v)))) counts, []⟩
  | named _ _ => none
  | defined _ _ constraints newVars => some ⟨constraints, newVars⟩

/-- An integer expression with the same value as a global function, if one is known. -/
def valueDecomposition : Global → Option Expr
  | count args value => some (.sum (args.map fun a => a.equals value))
  | _ => none

end Global

end Linearization
