import Linearization.Scalar

/-!
# Terms

A sum of columns with coefficients, as the list of its terms in increasing column order. `Term.sum`
is its value; adding a term keeps the order (`pairwise_insert`) and adds its value (`sum_insert`).
-/

namespace Linearization

/-- A column with its coefficient. -/
structure Term where
  column : Nat
  coefficient : Int
  deriving DecidableEq, Repr

namespace Term

/-- Coefficient times value of every term, summed from left to right. -/
def sum {α : Type} [Scalar α] (values : Nat → α) (ts : List Term) : α :=
  ts.foldl (fun acc t => acc + Scalar.ofInt t.coefficient * values t.column) (Scalar.ofInt 0)

/-- Add a term at its place; a column that is already there adds up. -/
def insert (t : Term) : List Term → List Term
  | [] => [t]
  | u :: us =>
    if t.column < u.column then t :: u :: us
    else if t.column = u.column then ⟨u.column, u.coefficient + t.coefficient⟩ :: us
    else u :: insert t us

/-- The terms of both lists in column order, without those that cancel. -/
def merge (ts us : List Term) : List Term :=
  (us.foldl (fun acc u => insert u acc) ts).filter (fun t => t.coefficient ≠ 0)

theorem foldl_eq_add (values : Nat → Int) (ts : List Term) (s : Int) :
    ts.foldl (fun acc t => acc + Scalar.ofInt t.coefficient * values t.column) s =
      s + sum values ts := by
  induction ts generalizing s with
  | nil => simp [sum]
  | cons t ts ih =>
    have h := ih (Scalar.ofInt 0 + Scalar.ofInt t.coefficient * values t.column)
    simp only [sum, List.foldl_cons] at *
    rw [ih, h, ih]
    simp only [Scalar.ofInt_int]
    omega

@[simp] theorem sum_nil (values : Nat → Int) : sum values [] = 0 := rfl

@[simp] theorem sum_cons (values : Nat → Int) (t : Term) (ts : List Term) :
    sum values (t :: ts) = t.coefficient * values t.column + sum values ts := by
  rw [sum, List.foldl_cons, foldl_eq_add]
  simp

theorem sum_insert (values : Nat → Int) (t : Term) (ts : List Term) :
    sum values (insert t ts) = t.coefficient * values t.column + sum values ts := by
  induction ts with
  | nil => simp [insert]
  | cons u us ih =>
    unfold insert
    split
    · simp
    split
    · rename_i h
      simp only [sum_cons, h, Int.add_mul]
      omega
    · simp only [sum_cons, ih]
      omega

theorem sum_filter_ne_zero (values : Nat → Int) (ts : List Term) :
    sum values (ts.filter (fun t => t.coefficient ≠ 0)) = sum values ts := by
  induction ts with
  | nil => rfl
  | cons t ts ih =>
    by_cases h : t.coefficient = 0
    · simp_all
    · rw [List.filter_cons_of_pos (by simpa using h), sum_cons, sum_cons, ih]

theorem sum_merge (values : Nat → Int) (ts us : List Term) :
    sum values (merge ts us) = sum values ts + sum values us := by
  rw [merge, sum_filter_ne_zero]
  induction us generalizing ts with
  | nil => simp
  | cons u us ih =>
    rw [List.foldl_cons, ih, sum_insert, sum_cons]
    omega

/-- The columns of the list increase strictly. -/
def Sorted (ts : List Term) : Prop := ts.Pairwise (fun t u => t.column < u.column)

instance (ts : List Term) : Decidable (Sorted ts) := inferInstanceAs (Decidable (List.Pairwise _ _))

theorem column_of_mem_insert {t u : Term} {ts : List Term} (h : u ∈ insert t ts) :
    u.column = t.column ∨ ∃ v ∈ ts, u.column = v.column := by
  induction ts with
  | nil => simp_all [insert]
  | cons v vs ih =>
    unfold insert at h
    split at h
    · rcases List.mem_cons.1 h with rfl | h
      · exact .inl rfl
      · exact .inr ⟨u, h, rfl⟩
    split at h
    · rcases List.mem_cons.1 h with rfl | h
      · exact .inr ⟨v, by simp, rfl⟩
      · exact .inr ⟨u, by simp [h], rfl⟩
    · rcases List.mem_cons.1 h with rfl | h
      · exact .inr ⟨u, by simp, rfl⟩
      · rcases ih h with h | ⟨w, hw, h⟩
        · exact .inl h
        · exact .inr ⟨w, by simp [hw], h⟩

theorem sorted_insert {t : Term} {ts : List Term} (h : Sorted ts) : Sorted (insert t ts) := by
  induction ts with
  | nil => simp [insert, Sorted]
  | cons u us ih =>
    obtain ⟨hu, hus⟩ := List.pairwise_cons.1 h
    unfold insert
    split
    · rename_i htu
      refine List.pairwise_cons.2 ⟨fun v hv => ?_, h⟩
      rcases List.mem_cons.1 hv with rfl | hv
      · exact htu
      · exact Nat.lt_trans htu (hu v hv)
    split
    · exact List.pairwise_cons.2 ⟨fun v hv => hu v hv, hus⟩
    · refine List.pairwise_cons.2 ⟨fun v hv => ?_, ih hus⟩
      rcases column_of_mem_insert hv with h' | ⟨w, hw, h'⟩
      · omega
      · rw [h']; exact hu w hw

theorem sorted_merge {ts us : List Term} (h : Sorted ts) : Sorted (merge ts us) := by
  refine List.Pairwise.filter _ ?_
  induction us generalizing ts with
  | nil => exact h
  | cons u us ih => exact ih (sorted_insert h)

theorem coefficient_ne_zero_of_mem_merge {t : Term} {ts us : List Term} (h : t ∈ merge ts us) :
    t.coefficient ≠ 0 := by
  simpa using (List.mem_filter.1 h).2

end Term

end Linearization
