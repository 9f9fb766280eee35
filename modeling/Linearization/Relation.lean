import Linearization.Comparison
import Linearization.Affine

/-!
# Relations

A comparison of two affine forms that has not become a row yet.
-/

namespace Linearization

/-- Two affine forms and the operator between them. -/
structure Relation where
  lhs : Affine
  op : Comparison
  rhs : Affine
  deriving DecidableEq

namespace Relation

/-- The relation with the complementary operator. -/
def negate (r : Relation) : Relation := { r with op := r.op.negate }

/-- The left side minus the right side. -/
def difference (r : Relation) : Except LoweringError Affine := r.lhs.minus r.rhs

/-- Truth of the relation under an assignment of the columns. -/
def Holds (values : Nat → Int) (r : Relation) : Prop :=
  r.op.Holds (r.lhs.eval values) (r.rhs.eval values)

instance (values : Nat → Int) (r : Relation) : Decidable (r.Holds values) :=
  inferInstanceAs (Decidable (r.op.Holds _ _))

theorem holds_negate (values : Nat → Int) (r : Relation) :
    r.negate.Holds values ↔ ¬ r.Holds values :=
  r.op.holds_negate _ _

end Relation

end Linearization
