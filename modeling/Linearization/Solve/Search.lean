import Linearization.Ilp.Solution
import Linearization.Solve.Run

/-!
# Exact search

An engine for small programs: it narrows the box of the columns by the rows, splits the range of a
column in two when the rows say no more, and once it has a solution looks only for better ones. What
it returns is checked against the program.
-/

namespace Linearization

/-- `sum (coefficient * column) ≤ limit`. -/
structure UpperLimit where
  terms : List Term
  limit : Int

/-- For every column the range that is left. -/
abbrev Box := Array (Int × Int)

namespace UpperLimit

/-- The terms with the opposite sign. -/
def opposite (ts : List Term) : List Term :=
  ts.map fun t => { t with coefficient := -t.coefficient }

/-- The limits that a row stands for. -/
def ofRow (r : Row) : List UpperLimit :=
  (r.upper.map fun u => ⟨r.terms, u⟩).toList ++
    (r.lower.map fun l => ⟨opposite r.terms, -l⟩).toList

/-- The smallest value of a term in the box. -/
def least (box : Box) (t : Term) : Int :=
  let (lower, upper) := box.getD t.column (0, 0)
  min (t.coefficient * lower) (t.coefficient * upper)

/-- Narrow the range of the column of a term that can exceed its least value by `slack`. -/
def narrowTerm (slack : Int) (box : Box) (t : Term) : Box :=
  let (lower, upper) := box.getD t.column (0, 0)
  if t.coefficient > 0 then
    box.setIfInBounds t.column (lower, min upper (lower + slack / t.coefficient))
  else if t.coefficient < 0 then
    box.setIfInBounds t.column (max lower (upper - slack / -t.coefficient), upper)
  else
    box

/-- Narrow the box by the limit; `none` if no point of the box meets it. -/
def narrow (u : UpperLimit) (box : Box) : Option Box :=
  let slack := u.limit - (u.terms.map (least box)).foldl (· + ·) 0
  if slack < 0 then none else some (u.terms.foldl (narrowTerm slack) box)

/-- Narrow by every limit, again while that changes something and `rounds` are left. -/
def narrowAll (limits : List UpperLimit) : Nat → Box → Option Box
  | 0, box => some box
  | rounds + 1, box =>
    match limits.foldlM (fun box u => u.narrow box) box with
    | none => none
    | some narrowed => if narrowed = box then some box else narrowAll limits rounds narrowed

end UpperLimit

namespace Ilp

/-- The objective as a sum that is to be made small. -/
def costTerms (p : Ilp) : Option (List Term) :=
  p.objective.map fun (direction, e) =>
    match direction with
    | .minimize => e.terms
    | .maximize => UpperLimit.opposite e.terms

/-- The column to split, with the end of its range to try first: among the columns with a range left
the one with the largest coefficient in the cost, and the first of these. -/
def branching (cost : List Term) (box : Box) : Option (Nat × Bool) :=
  let weight (i : Nat) : Int := ((cost.find? (fun t => t.column = i)).map Term.coefficient).getD 0
  let unfixed := (List.range box.size).filter fun i =>
    let (lower, upper) := box.getD i (0, 0)
    lower < upper
  let heaviest := unfixed.foldl (fun best i =>
    match best with
    | none => some i
    | some j => if (weight i).natAbs > (weight j).natAbs then some i else some j) none
  heaviest.map fun i => (i, weight i ≥ 0)

/-- The best point of the box that is better than the one known. Each split takes a value away from
the range of a column, so the widths of the ranges bound the depth. -/
def searchBox (p : Ilp) (limits : List UpperLimit) (cost : Option (List Term)) :
    Nat → Box → Option (Array Int) → Option (Array Int)
  | 0, _, best => best
  | depth + 1, box, best =>
    let better (known : Array Int) : List UpperLimit :=
      (cost.map fun ts => ⟨ts, Term.sum (assignmentOf known) ts - 1⟩).toList
    let cutoff := (best.map better).getD []
    if cost.isNone ∧ best.isSome then best
    else
      match UpperLimit.narrowAll (cutoff ++ limits) (box.size + 20) box with
      | none => best
      | some box =>
        match branching (cost.getD []) box with
        | none =>
          let point := box.map Prod.fst
          if p.accepts point then some point else best
        | some (i, lowFirst) =>
          let (lower, upper) := box.getD i (0, 0)
          let middle := (lower + upper) / 2
          let low := box.setIfInBounds i (lower, middle)
          let high := box.setIfInBounds i (middle + 1, upper)
          let (first, second) := if lowFirst then (low, high) else (high, low)
          p.searchBox limits cost depth second (p.searchBox limits cost depth first best)

/-- A solution of the program, of least cost if there is an objective. -/
def optimum (p : Ilp) : Option (Array Int) :=
  let box := p.columns.map fun c => (c.lower, c.upper)
  if box.any fun (lower, upper) => lower > upper then none
  else
    let depth := box.foldl (fun depth (lower, upper) => depth + (upper - lower).toNat) 1
    let limits := p.rows.toList.flatMap UpperLimit.ofRow
    p.searchBox limits p.costTerms depth box none

/-- The outcome of the search. -/
def exactOutcome (p : Ilp) : Outcome Int :=
  match p.optimum with
  | some values => { status := .optimal, values := some values, runtimeMillis := 0 }
  | none => { status := .unsatisfiable, values := none, runtimeMillis := 0 }

end Ilp

/-- Solve a model with one engine. -/
def Backend.solve (b : Backend) (config : Config) (model : Model) (slots : Slots) :
    Except SolveError Report × Slots :=
  if b.supported then
    Id.run (solveModel config model b.displayName (fun p => pure (.ok p.exactOutcome)) slots)
  else
    (.error (.notAvailable b), slots)

/-- Solve a model with the engine that its configuration asks for. An engine that is not available
is reported before anything is translated. -/
def solve (config : Config) (model : Model) (slots : Slots) : Except SolveError Report × Slots :=
  match config.check with
  | .error e => (.error (.invalidConfig e), slots)
  | .ok () =>
    match config.backend.resolve? with
    | none => (.error (.notAvailable config.backend), slots)
    | some b => b.solve config model slots

end Linearization
