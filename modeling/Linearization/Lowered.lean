import Linearization.Literal
import Linearization.Relation

/-!
# Lowered values

What an expression becomes over the columns of a program: a number, a literal, a column, an affine
form, a relation that nobody has needed as a value yet, or a sequence of these.
-/

namespace Linearization

/-- The value of an expression over the columns of a program. -/
inductive Lowered where
  | const (value : Int)
  | literal (l : Literal)
  | column (index : Nat)
  | affine (e : Affine)
  | relation (r : Relation)
  | sequence (items : List Lowered)

namespace Lowered

instance : Inhabited Lowered := ⟨const 0⟩

/-- The simplest form of an affine value: a constant, a single column, or the form itself. -/
def ofAffine (e : Affine) : Lowered :=
  match e.asConstant, e.asColumn with
  | some c, _ => const c
  | none, some i => column i
  | none, none => affine e

/-- The items of a sequence; everything else is its own only item. -/
def items : Lowered → List Lowered
  | sequence items => items
  | value => [value]

/-- The number of items. -/
def length (v : Lowered) : Nat := v.items.length

/-- Pair the items of two sides. A side with a single item is used against every item of the other;
sides of different lengths above that do not pair. -/
def pairUp (left right : Lowered) : Option (List (Lowered × Lowered)) :=
  match left.items, right.items with
  | [l], rs => some (rs.map fun r => (l, r))
  | ls, [r] => some (ls.map fun l => (l, r))
  | ls, rs => if ls.length = rs.length then some (ls.zip rs) else none

end Lowered

end Linearization
