/-!
# Comparisons

The six relational operators. `holds_negate` says that negation gives the complementary operator.
-/

namespace Linearization

/-- A relational operator. -/
inductive Comparison where
  | eq | ne | le | lt | ge | gt
  deriving DecidableEq, Repr

namespace Comparison

/-- The operator whose truth value is the complement. -/
def negate : Comparison → Comparison
  | eq => ne
  | ne => eq
  | le => gt
  | lt => ge
  | ge => lt
  | gt => le

/-- The operator as it is written between its sides. -/
def symbol : Comparison → String
  | eq => "=="
  | ne => "!="
  | le => "<="
  | lt => "<"
  | ge => ">="
  | gt => ">"

/-- Truth of a comparison of two integers. -/
def Holds (c : Comparison) (a b : Int) : Prop :=
  match c with
  | eq => a = b
  | ne => a ≠ b
  | le => a ≤ b
  | lt => a < b
  | ge => a ≥ b
  | gt => a > b

instance (c : Comparison) (a b : Int) : Decidable (c.Holds a b) := by
  cases c <;> unfold Holds <;> infer_instance

theorem holds_negate (c : Comparison) (a b : Int) : c.negate.Holds a b ↔ ¬ c.Holds a b := by
  cases c <;> simp only [negate, Holds] <;> omega

@[simp] theorem negate_negate (c : Comparison) : c.negate.negate = c := by
  cases c <;> rfl

end Comparison

end Linearization
