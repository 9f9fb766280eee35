import Linearization.Ilp.Coerce
import Linearization.Ilp.Encoding
import Linearization.Proofs.Canonical

/-!
# Coefficients of forms

A form is determined by its constant and the coefficient of every column. The exact sum and the
exact multiple are what they are for coefficients one by one (`coefficient_add`,
`coefficient_smul`), and a column has a term exactly if its coefficient is not zero
(`exists_term_iff`).

The checked operations give the exact result or overflow, and they overflow exactly if some number
of the exact result is no word (`Affine.Built.algebra_exact`). A difference moreover overflows if
the right side holds the least word, whose negation is none.
-/

namespace Linearization

namespace Word

/-- The constant or one of the coefficients is no word. -/
def SomeLeaves {ι : Type} (coefficient : ι → Int) (constant : Int) : Prop :=
  ¬ Fits constant ∨ ∃ i, ¬ Fits (coefficient i)

/-- Of all words only the least one has a negation that is no word. -/
theorem fits_neg_iff {v : Int} (h : Fits v) : Fits (-v) ↔ v ≠ least := by
  unfold Fits least greatest at *
  omega

theorem fits_zero : Fits 0 := by decide

end Word

namespace Affine

variable {a b c e : Affine} {k : Int} {i : Nat}

/-- The coefficient of a column; a column without a term has the coefficient zero. -/
def coefficient (e : Affine) (i : Nat) : Int :=
  (e.terms.find? fun t => t.column = i).elim 0 Term.coefficient

theorem coefficient_of_not_mem (h : ∀ t ∈ e.terms, t.column ≠ i) : e.coefficient i = 0 := by
  unfold coefficient
  rw [List.find?_eq_none.2 (by simpa using h)]
  rfl

/-- The coefficient of a column is the value that its unit adds to the constant. -/
theorem eval_unit (e : Affine) (i : Nat) :
    e.eval (Term.unit i) = e.coefficient i + e.constant := by
  show Term.sum (Term.unit i) e.terms + e.constant = _
  congr 1
  by_cases h : ∀ t ∈ e.terms, t.column ≠ i
  · rw [coefficient_of_not_mem h, Term.sum_unit_of_not_mem h]
  · obtain ⟨t, ht⟩ : ∃ t, e.terms.find? (fun t => t.column = i) = some t := by
      apply Option.isSome_iff_exists.1
      simpa using h
    have hcolumn : t.column = i := by simpa using List.find?_some ht
    unfold coefficient
    rw [ht, ← hcolumn, Term.sum_unit_of_mem e.sorted (List.mem_of_find?_eq_some ht)]
    rfl

theorem coefficient_of_mem {t : Term} (h : t ∈ e.terms) :
    e.coefficient t.column = t.coefficient := by
  have hunit := e.eval_unit t.column
  have hsum : e.eval (Term.unit t.column) = t.coefficient + e.constant := by
    show Term.sum (Term.unit t.column) e.terms + e.constant = _
    rw [Term.sum_unit_of_mem e.sorted h]
  omega

/-- No term is stored for a column whose coefficient is zero, and one for every other. -/
theorem exists_term_iff : (∃ t ∈ e.terms, t.column = i) ↔ e.coefficient i ≠ 0 := by
  constructor
  · rintro ⟨t, ht, rfl⟩
    rw [coefficient_of_mem ht]
    exact e.coefficient_ne_zero t ht
  · intro h
    by_contra hnone
    exact h (coefficient_of_not_mem fun t ht hcolumn => hnone ⟨t, ht, hcolumn⟩)

@[simp] theorem constant_add (a b : Affine) : (a + b).constant = a.constant + b.constant := rfl

@[simp] theorem constant_smul (k : Int) (e : Affine) : (smul k e).constant = k * e.constant := by
  rw [← eval_zero, eval_smul, eval_zero]

@[simp] theorem coefficient_add (a b : Affine) (i : Nat) :
    (a + b).coefficient i = a.coefficient i + b.coefficient i := by
  have hsum := (a + b).eval_unit i
  rw [eval_add, eval_unit, eval_unit, constant_add] at hsum
  omega

@[simp] theorem coefficient_smul (k : Int) (e : Affine) (i : Nat) :
    (smul k e).coefficient i = k * e.coefficient i := by
  have hmultiple := (smul k e).eval_unit i
  rw [eval_smul, eval_unit, constant_smul, Int.mul_add] at hmultiple
  omega

theorem coefficient_single (column : Nat) (k : Int) (i : Nat) :
    (single column k).coefficient i = if i = column then k else 0 := by
  have hunit := (single column k).eval_unit i
  have hconstant : (single column k).constant = 0 := by
    rw [← eval_zero, eval_single, Int.mul_zero]
  rw [eval_single, hconstant] at hunit
  by_cases h : i = column
  · subst h
    rw [Term.unit_self] at hunit
    simp only [if_true]
    omega
  · rw [Term.unit_of_ne (Ne.symm h)] at hunit
    simp only [h, if_false]
    omega

theorem fits_iff : e.Fits ↔ Word.Fits e.constant ∧ ∀ i, Word.Fits (e.coefficient i) := by
  constructor
  · rintro ⟨hconstant, hterms⟩
    refine ⟨hconstant, fun i => ?_⟩
    by_cases h : ∃ t ∈ e.terms, t.column = i
    · obtain ⟨t, ht, rfl⟩ := h
      rw [coefficient_of_mem ht]
      exact hterms t ht
    · rw [not_not.1 (mt exists_term_iff.2 h)]
      exact Word.fits_zero
  · rintro ⟨hconstant, hcoefficients⟩
    refine ⟨hconstant, fun t ht => ?_⟩
    rw [← coefficient_of_mem ht]
    exact hcoefficients t.column

theorem not_fits_iff : ¬ e.Fits ↔ Word.SomeLeaves e.coefficient e.constant := by
  rw [fits_iff, Classical.not_and_iff_not_or_not, not_forall]
  rfl

/-! ## Checked operations -/

theorem checked_of_fits (h : e.Fits) : e.checked = .ok e := if_pos h

theorem checked_of_not_fits (h : ¬ e.Fits) : e.checked = .error .overflow := if_neg h

/-- What a checked operation promises whose exact result has these values: it gives a form with
exactly these values, in which no stored coefficient is zero, unless it overflows, and it says when
it does. -/
structure ChecksTo (result : Except LoweringError Affine) (value : Assignment → Int)
    (overflows : Prop) : Prop where
  eval : ∀ c, result = .ok c → ∀ x, c.eval x = value x
  nonzero : ∀ c, result = .ok c → ∀ t ∈ c.terms, t.coefficient ≠ 0
  overflow_iff : result = .error .overflow ↔ overflows
  error : ∀ error, result = .error error → error = .overflow

theorem checksTo_checked (e : Affine) : ChecksTo e.checked (fun x => e.eval x) (¬ e.Fits) := by
  by_cases h : e.Fits
  · rw [checked_of_fits h]
    refine ⟨fun c hc x => ?_, fun c _ => c.coefficient_ne_zero, by simp [h], nofun⟩
    cases hc
    rfl
  · rw [checked_of_not_fits h]
    refine ⟨nofun, nofun, by simp [h], fun error herror => ?_⟩
    cases herror
    rfl

theorem ChecksTo.congr {result : Except LoweringError Affine} {f g : Assignment → Int}
    {P Q : Prop} (h : ChecksTo result f P) (hvalue : ∀ x, f x = g x) (hiff : P ↔ Q) :
    ChecksTo result g Q where
  eval c hc x := (h.eval c hc x).trans (hvalue x)
  nonzero := h.nonzero
  overflow_iff := h.overflow_iff.trans hiff
  error := h.error

theorem checksTo_plus (a b : Affine) : ChecksTo (a.plus b) (fun x => a.eval x + b.eval x)
    (Word.SomeLeaves (fun i => a.coefficient i + b.coefficient i)
      (a.constant + b.constant)) := by
  apply (checksTo_checked (a + b)).congr (eval_add · a b)
  rw [not_fits_iff]
  simp only [Word.SomeLeaves, coefficient_add, constant_add]

theorem checksTo_scale (e : Affine) (k : Int) : ChecksTo (e.scale k) (fun x => k * e.eval x)
    (Word.SomeLeaves (fun i => k * e.coefficient i) (k * e.constant)) := by
  apply (checksTo_checked (smul k e)).congr (eval_smul · k e)
  rw [not_fits_iff]
  simp only [Word.SomeLeaves, coefficient_smul, constant_smul]

/-- The form holds the least word, as its constant or as a coefficient. -/
def HoldsLeast (e : Affine) : Prop := e.constant = Word.least ∨ ∃ i, e.coefficient i = Word.least

/-- A form of words can be negated unless it holds the least word. -/
theorem someLeaves_neg_iff (h : e.Fits) :
    Word.SomeLeaves (fun i => -1 * e.coefficient i) (-1 * e.constant) ↔ e.HoldsLeast := by
  obtain ⟨hconstant, hcoefficients⟩ := fits_iff.1 h
  unfold Word.SomeLeaves HoldsLeast
  simp only [Int.neg_one_mul, Word.fits_neg_iff hconstant, Word.fits_neg_iff (hcoefficients _),
    not_not]

theorem checksTo_negated (h : e.Fits) : ChecksTo e.negated (fun x => -e.eval x) e.HoldsLeast := by
  apply (checksTo_scale e (-1)).congr (fun x => ?_) (someLeaves_neg_iff h)
  omega

/-- The difference is the sum with the negation, so either of the two may overflow. -/
theorem checksTo_minus (a : Affine) (hb : b.Fits) :
    ChecksTo (a.minus b) (fun x => a.eval x - b.eval x)
      (Word.SomeLeaves (fun i => a.coefficient i - b.coefficient i) (a.constant - b.constant) ∨
        b.HoldsLeast) := by
  by_cases hleast : b.HoldsLeast
  · have hminus : a.minus b = .error .overflow := by
      unfold minus
      rw [(checksTo_negated hb).overflow_iff.2 hleast]
      rfl
    rw [hminus]
    refine ⟨nofun, nofun, by simp [hleast], fun error herror => ?_⟩
    cases herror
    rfl
  · have hnegated : b.negated = .ok (smul (-1) b) := by
      apply checked_of_fits
      by_contra hfits
      exact hleast ((checksTo_negated hb).overflow_iff.1 (checked_of_not_fits hfits))
    have hminus : a.minus b = a.plus (smul (-1) b) := by
      unfold minus
      rw [hnegated]
      rfl
    rw [hminus]
    apply (checksTo_plus a (smul (-1) b)).congr (fun x => ?_)
    · simp only [coefficient_smul, constant_smul, hleast, or_false, Int.neg_one_mul,
        Int.sub_eq_add_neg]
    · rw [eval_smul]
      omega

/-! ## Forms that are built -/

/-- A form that constants, columns with coefficients and literals give, and operations that did not
overflow. -/
inductive Built : Affine → Prop where
  | const {k : Int} (hk : Word.Fits k) : Built (const k)
  | single (column : Nat) {k : Int} (hk : Word.Fits k) : Built (single column k)
  | literal (l : Literal) : Built l.toAffine
  | plus {a b c : Affine} (ha : Built a) (hb : Built b) (h : a.plus b = .ok c) : Built c
  | minus {a b c : Affine} (ha : Built a) (hb : Built b) (h : a.minus b = .ok c) : Built c
  | scale {e c : Affine} (he : Built e) {k : Int} (hk : Word.Fits k) (h : e.scale k = .ok c) :
    Built c
  | negated {e c : Affine} (he : Built e) (h : e.negated = .ok c) : Built c

theorem fits_of_checked (h : e.checked = .ok c) : c.Fits := by
  by_cases hfits : e.Fits
  · rwa [eq_of_checked h]
  · rw [checked_of_not_fits hfits] at h
    cases h

theorem fits_of_minus (h : a.minus b = .ok c) : c.Fits := by
  unfold minus at h
  cases hnegated : b.negated with
  | error error =>
    rw [hnegated] at h
    cases h
  | ok negative =>
    rw [hnegated] at h
    exact fits_of_checked h

theorem Built.fits (h : e.Built) : e.Fits := by
  cases h with
  | const hk => exact ⟨hk, List.forall_mem_nil _⟩
  | single column hk =>
    rw [fits_iff, ← eval_zero, eval_single, Int.mul_zero]
    refine ⟨Word.fits_zero, fun i => ?_⟩
    rw [coefficient_single]
    split
    · exact hk
    · exact Word.fits_zero
  | literal l =>
    have hsmall : Word.Fits 1 ∧ Word.Fits (-1) := by decide
    obtain ⟨column, positive⟩ := l
    cases positive
    · exact ⟨hsmall.1, List.forall_mem_singleton.2 hsmall.2⟩
    · exact ⟨Word.fits_zero, List.forall_mem_singleton.2 hsmall.1⟩
  | plus _ _ h => exact fits_of_checked h
  | minus _ _ h => exact fits_of_minus h
  | scale _ _ h => exact fits_of_checked h
  | negated _ h => exact fits_of_checked h

end Affine

/-! ## Forms as keys and as values -/

namespace Ilp

variable {p : Ilp} {e : Affine}

/-- What is found for a form was kept for a form with the same values. -/
theorem exists_of_encoding? {encoding : Encoding} (h : p.encoding? e = some encoding) :
    ∃ d, (d, encoding) ∈ p.encodings ∧ ∀ x : Assignment, d.eval x = e.eval x := by
  unfold encoding? at h
  obtain ⟨⟨d, found⟩, hfind, rfl⟩ := Option.map_eq_some_iff.1 h
  have hkey : d = e := by simpa using List.find?_some hfind
  exact ⟨d, List.mem_of_find?_eq_some hfind, fun x => by rw [hkey]⟩

/-- Nothing is found for a form exactly if every key has other values somewhere. -/
theorem encoding?_eq_none_iff :
    p.encoding? e = none ↔ ∀ entry ∈ p.encodings, ∃ x : Assignment, entry.1.eval x ≠ e.eval x := by
  have hdiffers : ∀ d : Affine, d ≠ e ↔ ∃ x : Assignment, d.eval x ≠ e.eval x := by
    intro d
    rw [← not_forall, not_iff_not]
    exact ⟨fun h x => by rw [h], Affine.eq_of_eval⟩
  unfold encoding?
  rw [Option.map_eq_none_iff, List.find?_eq_none]
  simp only [decide_eq_true_eq, ← hdiffers, ne_eq]

end Ilp

theorem Lowering.affineOf_ofAffine (e : Affine) (p : Ilp) :
    affineOf (.ofAffine e) p = .ok e p := by
  unfold Lowered.ofAffine
  cases hconst : e.asConstant with
  | some k =>
    have heq : e = .const k := Affine.eq_of_eval fun x => by
      rw [Affine.eval_of_asConstant hconst, Affine.eval_const]
    rw [heq]
    rfl
  | none =>
    cases hcolumn : e.asColumn with
    | none => rfl
    | some i =>
      have heq : e = .ofColumn i := Affine.eq_of_eval fun x => by
        rw [Affine.eval_of_asColumn hcolumn, Affine.eval_ofColumn]
      rw [heq]
      rfl

namespace Affine

/-- Forms that are built are a checked algebra in normal form. No stored coefficient is zero. Sum,
difference, multiple and negation have the exact values, or they overflow, which they do exactly if
a number of the exact result is no word or a number that has to be negated is the least word. Forms
with the same values are the same, so what is kept under a form is found by meaning; and a form that
is simplified to a value is recovered from it. -/
theorem Built.algebra_exact {a b : Affine} (ha : a.Built) (hb : b.Built) (k : Int) :
    (∀ t ∈ a.terms, t.coefficient ≠ 0) ∧
    ChecksTo (a.plus b) (fun x => a.eval x + b.eval x)
      (Word.SomeLeaves (fun i => a.coefficient i + b.coefficient i)
        (a.constant + b.constant)) ∧
    ChecksTo (a.minus b) (fun x => a.eval x - b.eval x)
      (Word.SomeLeaves (fun i => a.coefficient i - b.coefficient i)
        (a.constant - b.constant) ∨ b.HoldsLeast) ∧
    ChecksTo (a.scale k) (fun x => k * a.eval x)
      (Word.SomeLeaves (fun i => k * a.coefficient i) (k * a.constant)) ∧
    ChecksTo a.negated (fun x => -a.eval x) a.HoldsLeast ∧
    ((∀ x : Assignment, a.eval x = b.eval x) → a = b) ∧
    (∀ p : Ilp, (∀ encoding, p.encoding? a = some encoding →
        ∃ d, (d, encoding) ∈ p.encodings ∧ ∀ x : Assignment, d.eval x = a.eval x) ∧
      (p.encoding? a = none ↔
        ∀ entry ∈ p.encodings, ∃ x : Assignment, entry.1.eval x ≠ a.eval x)) ∧
    ∀ p : Ilp, Lowering.affineOf (.ofAffine a) p = .ok a p :=
  ⟨a.coefficient_ne_zero, checksTo_plus a b, checksTo_minus a hb.fits, checksTo_scale a k,
    checksTo_negated ha.fits, eq_of_eval,
    fun _ => ⟨fun _ => Ilp.exists_of_encoding?, Ilp.encoding?_eq_none_iff⟩,
    Lowering.affineOf_ofAffine a⟩

/-- The difference overflows although its only number is a word: that of the right side has no
negation. The left side has one. -/
theorem algebra_exact_of_least :
    let a := single 0 3 + single 1 (-1)
    let b := single 1 Word.least
    a.minus b = .error .overflow ∧ a.coefficient 1 - b.coefficient 1 = Word.greatest ∧
      ∃ c, a.negated = .ok c ∧ ∀ x, c.eval x = -a.eval x := by
  intro a b
  have hb : b.Built := .single 1 (by decide)
  have ha : a.Built :=
    .plus (.single 0 (by decide)) (.single 1 (by decide)) (checked_of_fits (by decide))
  obtain ⟨-, -, hminus, -, hnegated, -⟩ := ha.algebra_exact hb 0
  have hleast : b.HoldsLeast := .inr ⟨1, by decide⟩
  have hok : a.negated = .ok (smul (-1) a) := by
    show (smul (-1) a).checked = _
    exact checked_of_fits (by decide)
  exact ⟨hminus.overflow_iff.2 (.inr hleast), by decide, _, hok, hnegated.eval _ hok⟩

end Affine

end Linearization
