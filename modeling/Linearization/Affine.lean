import Linearization.LoweringError
import Linearization.Term

/-!
# Affine forms

An affine form is a sum of columns with non-zero integer coefficients, in increasing column order,
plus a constant. The type holds the normal form, so two forms are equal when they have the same
terms. Addition and scaling are exact (`eval_add`, `eval_smul`); `plus`, `minus`, `scale` and
`negated` are the same operations refused when a coefficient or the constant of the exact result is
no word.
-/

namespace Linearization

/-- `sum (coefficient * column) + constant`. -/
structure Affine where
  terms : List Term
  constant : Int
  sorted : Term.Sorted terms
  coefficient_ne_zero : ∀ t ∈ terms, t.coefficient ≠ 0
  deriving DecidableEq

namespace Affine

/-- The form without columns. -/
def const (c : Int) : Affine :=
  ⟨[], c, List.Pairwise.nil, fun _ h => nomatch h⟩

/-- One column with a coefficient; the coefficient zero leaves no term. -/
def single (column : Nat) (coefficient : Int) : Affine :=
  if h : coefficient = 0 then const 0
  else ⟨[⟨column, coefficient⟩], 0, List.pairwise_singleton _ _, by simpa using h⟩

/-- A column by itself. -/
def ofColumn (column : Nat) : Affine := single column 1

instance : Inhabited Affine := ⟨const 0⟩

/-- The value of the form under an assignment of the columns. -/
def eval {α : Type} [Scalar α] (values : Nat → α) (e : Affine) : α :=
  Term.sum values e.terms + Scalar.ofInt e.constant

/-- The exact sum. -/
def add (a b : Affine) : Affine where
  terms := Term.merge a.terms b.terms
  constant := a.constant + b.constant
  sorted := Term.sorted_merge a.sorted
  coefficient_ne_zero _ := Term.coefficient_ne_zero_of_mem_merge

instance : Add Affine := ⟨add⟩

/-- The exact multiple. -/
def smul (k : Int) (e : Affine) : Affine :=
  if h : k = 0 then const 0
  else
    { terms := e.terms.map (fun t => ⟨t.column, t.coefficient * k⟩)
      constant := e.constant * k
      sorted := List.pairwise_map.2 e.sorted
      coefficient_ne_zero := by
        intro t ht
        obtain ⟨u, hu, rfl⟩ := List.mem_map.1 ht
        exact Int.mul_ne_zero (e.coefficient_ne_zero u hu) h }

@[simp] theorem eval_const (values : Nat → Int) (c : Int) : (const c).eval values = c := by
  simp [eval, const]

@[simp] theorem eval_single (values : Nat → Int) (column : Nat) (k : Int) :
    (single column k).eval values = k * values column := by
  unfold single
  split <;> simp_all [eval, const]

@[simp] theorem eval_ofColumn (values : Nat → Int) (column : Nat) :
    (ofColumn column).eval values = values column := by
  simp [ofColumn]

@[simp] theorem eval_add (values : Nat → Int) (a b : Affine) :
    (a + b).eval values = a.eval values + b.eval values := by
  show Term.sum values (Term.merge _ _) + Scalar.ofInt (a.constant + b.constant) = _
  simp only [Term.sum_merge, eval, Scalar.ofInt_int]
  omega

@[simp] theorem eval_smul (values : Nat → Int) (k : Int) (e : Affine) :
    (smul k e).eval values = k * e.eval values := by
  unfold smul
  split
  · simp_all
  · have (ts : List Term) : Term.sum values (ts.map (fun t => ⟨t.column, t.coefficient * k⟩)) =
        k * Term.sum values ts := by
      induction ts with
      | nil => simp
      | cons t ts ih =>
        rw [List.map_cons, Term.sum_cons, Term.sum_cons, ih, Int.mul_add]
        simp only [Int.mul_comm t.coefficient k, Int.mul_assoc]
    simp only [eval, this, Scalar.ofInt_int, Int.mul_add, Int.mul_comm e.constant k]

/-- Every coefficient and the constant are words. -/
def Fits (e : Affine) : Prop := Word.Fits e.constant ∧ ∀ t ∈ e.terms, Word.Fits t.coefficient

instance : DecidablePred Fits := fun _ => inferInstanceAs (Decidable (_ ∧ _))

/-- A form all of whose numbers have to be words. -/
def checked (e : Affine) : Except LoweringError Affine :=
  if e.Fits then .ok e else .error .overflow

/-- The sum, if its numbers are words. -/
def plus (a b : Affine) : Except LoweringError Affine := (a + b).checked

/-- The multiple, if its numbers are words. -/
def scale (e : Affine) (k : Int) : Except LoweringError Affine := (smul k e).checked

/-- The negation, if its numbers are words. -/
def negated (e : Affine) : Except LoweringError Affine := e.scale (-1)

/-- The sum with the negated right side, both of which have to be made of words. -/
def minus (a b : Affine) : Except LoweringError Affine := do
  let negative ← b.negated
  a.plus negative

/-- The constant, if the form has no columns. -/
def asConstant (e : Affine) : Option Int :=
  match e.terms with
  | [] => some e.constant
  | _ => none

/-- The column, if the form is exactly one column with coefficient one. -/
def asColumn (e : Affine) : Option Nat :=
  match e.terms with
  | [t] => if t.coefficient = 1 ∧ e.constant = 0 then some t.column else none
  | _ => none

/-- The terms and then the constant, which is left out when it is zero and something else is
shown. -/
def render (e : Affine) : String :=
  let terms := e.terms.map (fun t => s!"{t.coefficient}*c{t.column}")
  let constant := if e.terms.isEmpty || e.constant ≠ 0 then [toString e.constant] else []
  " + ".intercalate (terms ++ constant)

end Affine

end Linearization
