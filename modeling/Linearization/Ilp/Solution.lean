import Linearization.Ilp.Basic

/-!
# Solutions

`Solves` says that an integer assignment keeps every column bound and meets every row.
`Accepts` is the same for the numbers that an engine reports, with the tolerance of the scalar.
-/

namespace Linearization

namespace Row

/-- The value of the row under an assignment. -/
def activity {α : Type} [Scalar α] (values : Nat → α) (r : Row) : α := Term.sum values r.terms

/-- The activity lies between the sides, up to the tolerance. -/
def accepts {α : Type} [Scalar α] (values : Nat → α) (r : Row) : Bool :=
  let a := r.activity values
  r.lower.all (fun l => Scalar.le (Scalar.ofInt l - Scalar.tolerance) a) &&
    r.upper.all (fun u => Scalar.le a (Scalar.ofInt u + Scalar.tolerance))

/-- The activity lies between the sides. -/
def Holds (values : Nat → Int) (r : Row) : Prop :=
  (∀ l ∈ r.lower, l ≤ r.activity values) ∧ (∀ u ∈ r.upper, r.activity values ≤ u)

instance (values : Nat → Int) (r : Row) : Decidable (r.Holds values) :=
  inferInstanceAs (Decidable (_ ∧ _))

end Row

namespace Column

/-- The value lies within the bounds and is an integer, up to the tolerance. -/
def accepts {α : Type} [Scalar α] (c : Column) (v : α) : Bool :=
  Scalar.le (Scalar.ofInt c.lower - Scalar.tolerance) v &&
    Scalar.le v (Scalar.ofInt c.upper + Scalar.tolerance) &&
    Scalar.le (v - Scalar.round v) Scalar.tolerance &&
    Scalar.le (Scalar.round v - v) Scalar.tolerance

/-- The value lies within the bounds. -/
def Admits (c : Column) (v : Int) : Prop := c.lower ≤ v ∧ v ≤ c.upper

instance (c : Column) (v : Int) : Decidable (c.Admits v) := inferInstanceAs (Decidable (_ ∧ _))

end Column

/-- The assignment that a list of values stands for; a column without a value reads as zero. -/
def assignmentOf {α : Type} [Scalar α] (values : Array α) (column : Nat) : α :=
  values.getD column (Scalar.ofInt 0)

namespace Ilp

/-- The integer assignment keeps every column bound and meets every row. -/
def Solves (p : Ilp) (values : Nat → Int) : Prop :=
  (∀ (i : Nat) (c : Column), p.columns[i]? = some c → c.Admits (values i)) ∧
    ∀ r ∈ p.rows, r.Holds values

instance (p : Ilp) (values : Nat → Int) : Decidable (p.Solves values) :=
  decidable_of_iff
    ((∀ i : Fin p.columns.size, p.columns[i].Admits (values i)) ∧ ∀ r ∈ p.rows, r.Holds values) <|
    and_congr_left' <| by
      constructor
      · intro h i c hc
        obtain ⟨hi, rfl⟩ := Array.getElem?_eq_some_iff.1 hc
        exact h ⟨i, hi⟩
      · exact fun h i => h i _ (Array.getElem?_eq_getElem i.isLt)

/-- The values are one per column and keep bounds, integrality and rows up to the tolerance. -/
def accepts {α : Type} [Scalar α] (p : Ilp) (values : Array α) : Bool :=
  values.size == p.columns.size &&
    (p.columns.zip values).all (fun (c, v) => c.accepts v) &&
    p.rows.all (fun r => r.accepts (assignmentOf values))

end Ilp

end Linearization
