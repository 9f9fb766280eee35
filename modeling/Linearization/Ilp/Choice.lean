import Linearization.Ilp.Clause
import Linearization.Ilp.Encoding
import Linearization.Position

/-!
# Distinct values, extrema and selected items

All-different is stated pair by pair. An extremum is beyond every item and, by a literal of its own
per item, equal to at least one. `array[index] = target` is stated value by value of the index.
-/

namespace Linearization.Lowering

/-- The form differs from each of the others whenever every guard is true. -/
def enforceDiffers (e : Affine) (others : List Affine) (guards : List Literal) :
    Lowering Unit :=
  others.forM fun other => enforce ⟨e, .ne, other⟩ guards

/-- The forms take pairwise distinct values whenever every guard is true. -/
def enforceDistinct (guards : List Literal) : List Affine → Lowering Unit
  | [] => return ()
  | e :: es => do
    enforceDiffers e es guards
    enforceDistinct guards es

/-- The target stands in the relation `op` to every form; the result has, for each form, a literal
that can be true only if the target equals it. -/
def addWitnesses (target : Affine) (op : Comparison) : List Affine → Lowering (List Literal)
  | [] => return []
  | e :: es => do
    require ⟨target, op, e⟩
    let witness ← auxiliaryBool "witness"
    enforce ⟨target, .eq, e⟩ [witness]
    return witness :: (← addWitnesses target op es)

/-- The target stands in the relation `op` to every form and equals one of them. -/
def addExtremum (target : Affine) (forms : List Affine) (op : Comparison) : Lowering Unit := do
  addClause (← addWitnesses target op forms) []

/-- The target is the smallest of the forms. -/
def addMinimum (target : Affine) (forms : List Affine) : Lowering Unit :=
  addExtremum target forms .le

/-- The target is the largest of the forms. -/
def addMaximum (target : Affine) (forms : List Affine) : Lowering Unit :=
  addExtremum target forms .ge

/-- For each value of the index: if it is selected, the target equals the item there; a value
without an item cannot be selected. -/
def selectEach (items : List Affine) (target : Affine) (guards : List Literal) :
    Encoding → Lowering Unit
  | [] => return ()
  | (position, selected) :: rest => do
    match itemAt? items position with
    | some item => enforce ⟨target, .eq, item⟩ (guards ++ [selected])
    | none => addClause [selected.negate] guards
    selectEach items target guards rest

/-- The index is a position of the list and the target equals the item there, whenever every guard
is true. -/
def enforceElement (index : Affine) (items : List Affine) (target : Affine)
    (guards : List Literal) : Lowering Unit := do
  selectEach items target guards (← encode index)

end Linearization.Lowering
