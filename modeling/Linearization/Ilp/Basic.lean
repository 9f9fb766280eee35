import Linearization.Direction
import Linearization.Lowered

/-!
# Integer linear programs

A program has bounded integer columns, two-sided rows over them and at most one objective. Columns
and rows are only ever appended. Besides them it remembers the column fixed to true and the value
encodings made so far, so that both are shared.

A `Lowering` is a step that builds the program. When it fails, the columns and rows it had already
appended stay.
-/

namespace Linearization

/-- An integer column with inclusive bounds. -/
structure Column where
  name : String
  lower : Int
  upper : Int
  isBool : Bool
  deriving DecidableEq, Repr

/-- `lower ≤ sum (coefficient * column) ≤ upper`, where a side may be open. -/
structure Row where
  terms : List Term
  lower : Option Int
  upper : Option Int
  deriving DecidableEq, Repr

/-- The values of an expression, each with the literal that stands for it. -/
abbrev Encoding := List (Int × Literal)

/-- An integer linear program under construction. -/
structure Ilp where
  columns : Array Column := #[]
  rows : Array Row := #[]
  objective : Option (Direction × Affine) := none
  /-- The column fixed to one, once it was needed. -/
  trueColumn : Option Nat := none
  /-- The value encodings made so far, the newest first. -/
  encodings : List (Affine × Encoding) := []
  /-- The largest domain that is enumerated. -/
  enumerationLimit : Nat
  deriving DecidableEq

/-- A step that extends the program and may fail; what it appended before failing stays. -/
abbrev Lowering := EStateM LoweringError Ilp

namespace Ilp

/-- The program without columns and rows. -/
def empty (enumerationLimit : Nat) : Ilp := { enumerationLimit }

/-- The program with one more column. -/
def withColumn (p : Ilp) (c : Column) : Ilp := { p with columns := p.columns.push c }

/-- The program with one more row. -/
def withRow (p : Ilp) (r : Row) : Ilp := { p with rows := p.rows.push r }

/-- The number of columns that stand for truth values. -/
def boolColumnCount (p : Ilp) : Nat := (p.columns.filter Column.isBool).size

/-- The interval of a sum, continued from the interval of the terms before. Each end has to stay a
128-bit word on the way. -/
def boundsFrom (p : Ilp) : List Term → Int × Int → Except LoweringError (Int × Int)
  | [], interval => .ok interval
  | t :: ts, (lower, upper) =>
    match p.columns[t.column]? with
    | none => .error (.fault (.missingColumn t.column))
    | some c =>
      let atLower := t.coefficient * c.lower
      let atUpper := t.coefficient * c.upper
      let lower := lower + min atLower atUpper
      let upper := upper + max atLower atUpper
      if WideWord.Fits lower ∧ WideWord.Fits upper then boundsFrom p ts (lower, upper)
      else .error .overflow

/-- The smallest and the largest value that a form takes over the column bounds. -/
def bounds (p : Ilp) (e : Affine) : Except LoweringError (Int × Int) := do
  let (lower, upper) ← p.boundsFrom e.terms (e.constant, e.constant)
  let lower ← Word.checked lower
  let upper ← Word.checked upper
  return (lower, upper)

/-- The literal that a form is, when it is a column with bounds inside `[0, 1]` or one minus such a
column. -/
def literalView (p : Ilp) (e : Affine) : Except LoweringError (Option Literal) :=
  match e.terms with
  | [t] =>
    match p.columns[t.column]? with
    | none => .error (.fault (.missingColumn t.column))
    | some c =>
      if c.lower < 0 ∨ c.upper > 1 then .ok none
      else if t.coefficient = 1 ∧ e.constant = 0 then .ok (some ⟨t.column, true⟩)
      else if t.coefficient = -1 ∧ e.constant = 1 then .ok (some ⟨t.column, false⟩)
      else .ok none
  | _ => .ok none

end Ilp

namespace Lowering

/-- A computation that does not touch the program. -/
def ofExcept {α : Type} : Except LoweringError α → Lowering α
  | .ok a => pure a
  | .error e => throw e

instance : MonadLift (Except LoweringError) Lowering := ⟨ofExcept⟩

/-- Append a column; the result is its index. -/
def addColumn (c : Column) : Lowering Nat := do
  let index := (← get).columns.size
  modify (·.withColumn c)
  return index

/-- Append a row. -/
def addRow (r : Row) : Lowering Unit :=
  modify (·.withRow r)

/-- A new truth value. -/
def newBool (name : String) : Lowering Literal := do
  let i ← addColumn ⟨name, 0, 1, true⟩
  return .ofColumn i

/-- A new integer. -/
def newInt (lower upper : Int) (name : String) : Lowering Nat :=
  addColumn ⟨name, lower, upper, false⟩

/-- The name of the next auxiliary column: an underscore, its purpose and its index. -/
def auxiliaryName (purpose : String) : Lowering String := do
  return s!"_{purpose}{(← get).columns.size}"

/-- A new auxiliary truth value. -/
def auxiliaryBool (purpose : String) : Lowering Literal := do
  newBool (← auxiliaryName purpose)

/-- A new auxiliary integer. -/
def auxiliaryInt (purpose : String) (lower upper : Int) : Lowering Nat := do
  newInt lower upper (← auxiliaryName purpose)

/-- The literal that is always true; its column is made on first use. -/
def trueLiteral : Lowering Literal := do
  match (← get).trueColumn with
  | some i => return .ofColumn i
  | none =>
    let i ← addColumn ⟨"_true", 1, 1, true⟩
    modify fun p => { p with trueColumn := some i }
    return .ofColumn i

/-- The literal of a truth value. -/
def constantLiteral (value : Bool) : Lowering Literal := do
  let t ← trueLiteral
  return if value then t else t.negate

/-- The bounds of a form in the program so far. -/
def bounds (e : Affine) : Lowering (Int × Int) := do
  (← get).bounds e

/-- Install an objective. -/
def setObjective (direction : Direction) (e : Affine) : Lowering Unit :=
  modify fun p => { p with objective := some (direction, e) }

end Lowering

end Linearization
