/-!
# Directions

Whether an objective is made as small or as large as possible.
-/

namespace Linearization

/-- The direction of an objective. -/
inductive Direction where
  | minimize | maximize
  deriving DecidableEq, Repr

end Linearization
