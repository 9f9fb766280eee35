import Linearization.Ilp.Basic
import Linearization.Proofs.Affine
import Mathlib.Data.List.Sort

/-!
# Values determine forms

Terms are sorted by column and have no coefficient zero, so a form is nothing but the function that
takes an assignment to its value (`Affine.eq_of_eval`). What a lowering reads off the terms of a
form is then a property of its values: that it is constant, that it is a single column, that it is a
literal.
-/

namespace Linearization

namespace Term

/-- One for a column and zero for every other. -/
def unit (i : Nat) : Assignment := Function.update (fun _ => 0) i 1

@[simp] theorem unit_self (i : Nat) : unit i i = 1 := Function.update_self ..

theorem unit_of_ne {i j : Nat} (h : j ≠ i) : unit i j = 0 := Function.update_of_ne h ..

variable {ts us : List Term}

theorem sum_zero (ts : List Term) : sum (fun _ => (0 : Int)) ts = 0 := by
  induction ts with
  | nil => rfl
  | cons t ts ih => rw [sum_cons, ih, Int.mul_zero, Int.zero_add]

theorem sum_unit_of_not_mem {i : Nat} (h : ∀ t ∈ ts, t.column ≠ i) : sum (unit i) ts = 0 := by
  induction ts with
  | nil => rfl
  | cons t ts ih =>
    rw [List.forall_mem_cons] at h
    rw [sum_cons, ih h.2, unit_of_ne h.1, Int.mul_zero, Int.zero_add]

/-- In a sorted list a column has one term, which the unit of the column picks. -/
theorem sum_unit_of_mem (hs : Sorted ts) {t : Term} (ht : t ∈ ts) :
    sum (unit t.column) ts = t.coefficient := by
  induction ts with
  | nil => cases ht
  | cons u us ih =>
    obtain ⟨hu, hus⟩ := List.pairwise_cons.1 hs
    rcases List.mem_cons.1 ht with rfl | ht
    · have hrest : ∀ v ∈ us, v.column ≠ t.column := fun v hv => (Nat.ne_of_lt (hu v hv)).symm
      rw [sum_cons, sum_unit_of_not_mem hrest, unit_self, Int.mul_one, Int.add_zero]
    · rw [sum_cons, ih hus ht, unit_of_ne (Nat.ne_of_lt (hu t ht)), Int.mul_zero, Int.zero_add]

/-- A term of one list is one of the other, if the units do not tell the lists apart. -/
theorem mem_of_sum_unit (hs : Sorted ts) (hu : Sorted us) (hzero : ∀ t ∈ ts, t.coefficient ≠ 0)
    (h : ∀ i, sum (unit i) ts = sum (unit i) us) {t : Term} (ht : t ∈ ts) : t ∈ us := by
  have hsum := h t.column
  rw [sum_unit_of_mem hs ht] at hsum
  by_cases hmem : ∃ u ∈ us, u.column = t.column
  · obtain ⟨u, hmem, hcolumn⟩ := hmem
    rw [← hcolumn, sum_unit_of_mem hu hmem] at hsum
    have htu : t = u := by
      cases t
      cases u
      simp_all
    exact htu ▸ hmem
  · rw [sum_unit_of_not_mem fun u hu heq => hmem ⟨u, hu, heq⟩] at hsum
    exact absurd hsum (hzero t ht)

end Term

namespace Affine

variable {e d : Affine} {k : Int} {i : Nat}

theorem eval_zero (e : Affine) : e.eval (fun _ => (0 : Int)) = e.constant := by
  rw [eval, Term.sum_zero, Scalar.ofInt_int, Int.zero_add]

/-- Forms with the same values are the same. -/
theorem eq_of_eval (h : ∀ x : Assignment, e.eval x = d.eval x) : e = d := by
  have hconstant : e.constant = d.constant := by rw [← eval_zero, ← eval_zero, h]
  have hunit : ∀ i, Term.sum (Term.unit i) e.terms = Term.sum (Term.unit i) d.terms := by
    intro i
    have hi := h (Term.unit i)
    unfold eval at hi
    rw [hconstant] at hi
    omega
  have hterms : e.terms = d.terms := by
    have : Std.Antisymm fun t u : Term => t.column < u.column :=
      ⟨fun t u h h' => absurd h' (Nat.lt_asymm h)⟩
    have : Std.Irrefl fun t u : Term => t.column < u.column := ⟨fun t => Nat.lt_irrefl _⟩
    refine List.Pairwise.eq_of_mem_iff e.sorted d.sorted fun t => ⟨fun ht => ?_, fun ht => ?_⟩
    · exact Term.mem_of_sum_unit e.sorted d.sorted e.coefficient_ne_zero hunit ht
    · exact Term.mem_of_sum_unit d.sorted e.sorted d.coefficient_ne_zero
        (fun i => (hunit i).symm) ht
  cases e
  cases d
  simp_all

theorem asConstant_eq_some_iff : e.asConstant = some k ↔ ∀ x : Assignment, e.eval x = k := by
  refine ⟨eval_of_asConstant, fun h => ?_⟩
  rw [eq_of_eval (d := const k) fun x => (h x).trans (eval_const x k).symm]
  rfl

theorem asColumn_eq_some_iff : e.asColumn = some i ↔ ∀ x : Assignment, e.eval x = x i := by
  refine ⟨eval_of_asColumn, fun h => ?_⟩
  rw [eq_of_eval (d := ofColumn i) fun x => (h x).trans (eval_ofColumn x i).symm]
  simp [asColumn, ofColumn, single]

end Affine

/-- A form is viewed as a literal exactly when it is the form of the literal and the column is a
truth value. -/
theorem Ilp.literalView_eq_some_iff {p : Ilp} {e : Affine} {l : Literal} :
    p.literalView e = .ok (some l) ↔ (∀ x : Assignment, e.eval x = l.toAffine.eval x) ∧
      ∃ c, p.columns[l.column]? = some c ∧ 0 ≤ c.lower ∧ c.upper ≤ 1 := by
  constructor
  · intro h
    unfold literalView at h
    split at h
    · rename_i t hterms
      split at h
      · cases h
      rename_i c hc
      split at h
      · cases h
      rename_i hbounds
      split at h
      · rename_i ht
        cases h
        refine ⟨fun x => ?_, c, hc, by omega⟩
        simp [Affine.eval, hterms, Literal.toAffine, Affine.ofColumn, Affine.single, ht]
      split at h
      · rename_i ht
        cases h
        refine ⟨fun x => ?_, c, hc, by omega⟩
        simp [Affine.eval, hterms, Literal.toAffine, ht]
      · cases h
    · cases h
  · rintro ⟨heval, c, hc, hlower, hupper⟩
    obtain rfl := Affine.eq_of_eval heval
    obtain ⟨column, positive⟩ := l
    have hbounds : ¬ (c.lower < 0 ∨ c.upper > 1) := by omega
    cases positive <;>
      simp [literalView, Literal.toAffine, Affine.ofColumn, Affine.single, hc, hbounds]

end Linearization
