import Linearization.Affine

/-!
# Literals

A literal is a 0/1 column or its complement. Its affine form is the column, or one minus the column.
-/

namespace Linearization

/-- A column read as a truth value, or its complement. -/
structure Literal where
  column : Nat
  positive : Bool
  deriving DecidableEq, Repr

namespace Literal

/-- The column itself. -/
def ofColumn (column : Nat) : Literal := ⟨column, true⟩

/-- The complementary literal. -/
def negate (l : Literal) : Literal := { l with positive := !l.positive }

/-- The column, or one minus the column. -/
def toAffine (l : Literal) : Affine :=
  if l.positive then .ofColumn l.column
  else ⟨[⟨l.column, -1⟩], 1, List.pairwise_singleton _ _, by simp⟩

/-- The value of the literal where its column is rounded to a word. -/
def value {α : Type} [Scalar α] (values : Nat → α) (l : Literal) : Int :=
  let v := Scalar.toWord (values l.column)
  if l.positive then v else 1 - v

/-- The literal is true under an assignment of the columns. -/
def Holds (values : Nat → Int) (l : Literal) : Prop := l.toAffine.eval values = 1

instance (values : Nat → Int) (l : Literal) : Decidable (l.Holds values) :=
  inferInstanceAs (Decidable (_ = _))

@[simp] theorem negate_negate (l : Literal) : l.negate.negate = l := by
  simp [negate]

theorem eval_toAffine (values : Nat → Int) (l : Literal) :
    l.toAffine.eval values = if l.positive then values l.column else 1 - values l.column := by
  unfold toAffine
  split
  · simp
  · simp only [Affine.eval, Term.sum_cons, Term.sum_nil, Scalar.ofInt_int]
    omega

@[simp] theorem eval_toAffine_negate (values : Nat → Int) (l : Literal) :
    l.negate.toAffine.eval values = 1 - l.toAffine.eval values := by
  rw [eval_toAffine, eval_toAffine]
  cases h : l.positive with
  | true => simp [negate, h]
  | false =>
    simp only [negate, h, Bool.not_false, if_true, Bool.false_eq_true, if_false]
    omega

end Literal

end Linearization
