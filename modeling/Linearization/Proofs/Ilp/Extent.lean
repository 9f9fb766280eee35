import Linearization.Proofs.Ilp.Range
import Linearization.Proofs.Ilp.Reify
import Mathlib.Order.Bounds.Basic

/-!
# Exact bounds and decided relations

Where every column has a value, the interval that `bounds` gives runs from the smallest to the
largest value of the form within the column bounds (`bounds_exact`). If one of them is no word, the
bounds overflow. If both are words, they overflow only where a sum on the way has more than 128
bits.

The truth of a relation is decided by the interval of the difference of its sides. A decision is
right everywhere within the column bounds. If there is none, the interval alone does not tell: it
holds integers of both kinds (`Comparison.exists_of_undecided`).
-/

namespace Linearization

theorem WideWord.fits_mul {a b : Int} (ha : Word.Fits a) (hb : Word.Fits b) : Fits (a * b) := by
  have hmem := Ilp.mul_mem_interval (k := a) hb.1 hb.2
  unfold Word.Fits at ha
  unfold Word.least Word.greatest at *
  unfold Fits
  omega

/-- An interval that does not decide a comparison with zero holds an integer for which it is true
and one for which it is false. -/
theorem Comparison.exists_of_undecided {c : Comparison} {lower upper : Int} (hle : lower ≤ upper)
    (h : c.decided lower upper = none) :
    (∃ v, lower ≤ v ∧ v ≤ upper ∧ c.Holds v 0) ∧
      ∃ v, lower ≤ v ∧ v ≤ upper ∧ ¬ c.Holds v 0 := by
  -- Zero is neither excluded nor the only integer of the interval.
  have hother : ¬ (lower = 0 ∧ upper = 0) → ∃ v, lower ≤ v ∧ v ≤ upper ∧ v ≠ 0 := by
    intro hne
    by_cases h0 : lower = 0
    · exact ⟨upper, hle, Int.le_refl upper, fun h => hne ⟨h0, h⟩⟩
    · exact ⟨lower, Int.le_refl lower, hle, h0⟩
  have hrefused : ∀ always never : Bool,
      (if always then some true else if never then some false else none) = none →
        always = false ∧ never = false := by
    decide
  cases c <;> obtain ⟨halways, hnever⟩ := hrefused _ _ h <;>
    simp only [decide_eq_false_iff_not] at halways hnever <;> simp only [Holds]
  case eq => exact ⟨⟨0, by omega, by omega, rfl⟩, hother halways⟩
  case ne => exact ⟨hother hnever, 0, by omega, by omega, by simp⟩
  case le | lt => exact ⟨⟨lower, by omega⟩, upper, by omega⟩
  case ge | gt => exact ⟨⟨upper, by omega⟩, lower, by omega⟩

namespace Ilp

open Lowering

variable {p : Ilp} {e : Affine} {r : Relation} {ts : List Term} {lower upper : Int}
  {x : Assignment}

/-- The assignments under which every column lies within its bounds. -/
def box (p : Ilp) : Set Assignment :=
  {x | ∀ (i : Nat) (c : Column), p.columns[i]? = some c → c.Admits (x i)}

/-- Every column has a value within its bounds. -/
def HasValues (p : Ilp) : Prop := ∀ c ∈ p.columns, c.lower ≤ c.upper

instance (p : Ilp) : Decidable p.HasValues :=
  inferInstanceAs (Decidable (∀ c ∈ p.columns, c.lower ≤ c.upper))

/-- While the terms are added one after the other, the smallest and the largest sum are 128-bit
words. -/
def SumsFit (p : Ilp) (e : Affine) : Prop :=
  ∀ ts, ts <+: e.terms → WideWord.Fits (e.constant + p.extreme min ts) ∧
    WideWord.Fits (e.constant + p.extreme max ts)

theorem HasValues.spans_iff (hp : p.HasValues) : p.Spans x ↔ x ∈ p.box := by
  apply forall₃_congr
  intro i c hc
  have hle : c.lower ≤ c.upper := hp c (Array.mem_of_getElem? hc)
  rw [min_eq_left hle, max_eq_right hle]
  rfl

theorem HasValues.isLeast (hp : p.HasValues) (h : p.Ranges e lower upper) :
    IsLeast (e.eval '' p.box) lower := by
  obtain ⟨x, hx, hleast⟩ := h.least
  refine ⟨⟨x, hp.spans_iff.1 hx, hleast⟩, ?_⟩
  rintro _ ⟨y, hy, rfl⟩
  exact (h.within y (hp.spans_iff.2 hy)).1

theorem HasValues.isGreatest (hp : p.HasValues) (h : p.Ranges e lower upper) :
    IsGreatest (e.eval '' p.box) upper := by
  obtain ⟨x, hx, hgreatest⟩ := h.greatest
  refine ⟨⟨x, hp.spans_iff.1 hx, hgreatest⟩, ?_⟩
  rintro _ ⟨y, hy, rfl⟩
  exact (h.within y (hp.spans_iff.2 hy)).2

theorem boundsFrom_eq_error {interval : Int × Int} {error : LoweringError}
    (hts : ∀ t ∈ ts, t.column < p.columns.size) (h : p.boundsFrom ts interval = .error error) :
    error = .overflow ∧ ∃ us, us <+: ts ∧
      ¬ (WideWord.Fits (interval.1 + p.extreme min us) ∧
        WideWord.Fits (interval.2 + p.extreme max us)) := by
  induction ts generalizing interval with
  | nil => cases h
  | cons t ts ih =>
    rw [List.forall_mem_cons] at hts
    have hc := Array.getElem?_eq_getElem hts.1
    unfold boundsFrom at h
    simp only [hc] at h
    split at h
    · obtain ⟨herror, us, hus, hwide⟩ := ih hts.2 h
      refine ⟨herror, t :: us, List.cons_prefix_cons.2 ⟨rfl, hus⟩, ?_⟩
      simpa only [extreme, hc, Option.elim_some, Int.add_assoc] using hwide
    · rename_i hwide
      cases h
      refine ⟨rfl, [t], by simp, ?_⟩
      simpa only [extreme, hc, Option.elim_some, Int.add_zero] using hwide

theorem bounds_eq_error {error : LoweringError} (he : e.Below p.columns.size)
    (h : p.bounds e = .error error) : error = .overflow ∧
      (¬ p.SumsFit e ∨ ¬ Word.Fits (e.constant + p.extreme min e.terms) ∨
        ¬ Word.Fits (e.constant + p.extreme max e.terms)) := by
  cases hfrom : p.boundsFrom e.terms (e.constant, e.constant) with
  | error error' =>
    obtain ⟨rfl, us, hus, hwide⟩ := boundsFrom_eq_error he hfrom
    unfold bounds at h
    rw [hfrom] at h
    cases h
    exact ⟨rfl, .inl fun hfits => hwide (hfits us hus)⟩
  | ok b =>
    obtain ⟨hlower, hupper⟩ := boundsFrom_eq_extreme hfrom
    dsimp only at hlower hupper
    rw [← hlower, ← hupper]
    by_cases hl : Word.Fits b.1
    · by_cases hu : Word.Fits b.2
      · have hok : p.bounds e = .ok (b.1, b.2) := bounds_eq_ok.2 ⟨hfrom, hl, hu⟩
        rw [hok] at h
        cases h
      · unfold bounds Word.checked at h
        simp only [hfrom, bind, Except.bind, if_pos hl, if_neg hu] at h
        cases h
        exact ⟨rfl, .inr (.inr hu)⟩
    · unfold bounds Word.checked at h
      simp only [hfrom, bind, Except.bind, if_neg hl] at h
      cases h
      exact ⟨rfl, .inr (.inl hl)⟩

theorem HasValues.extremes_of_bounds (hp : p.HasValues) (h : p.bounds e = .ok (lower, upper)) :
    IsLeast (e.eval '' p.box) lower ∧ IsGreatest (e.eval '' p.box) upper :=
  ⟨hp.isLeast (ranges_of_bounds h), hp.isGreatest (ranges_of_bounds h)⟩

/-- An extreme value that is no word is an overflow: the ends of an interval that is returned are
words, and they are the only extreme values. -/
theorem HasValues.bounds_eq_overflow (hp : p.HasValues) (he : e.Below p.columns.size) {v : Int}
    (hv : IsLeast (e.eval '' p.box) v ∨ IsGreatest (e.eval '' p.box) v) (hfits : ¬ Word.Fits v) :
    p.bounds e = .error .overflow := by
  cases hb : p.bounds e with
  | error error => rw [(bounds_eq_error he hb).1]
  | ok b =>
    obtain ⟨hleast, hgreatest⟩ := hp.extremes_of_bounds hb
    obtain ⟨-, hl, hu⟩ := bounds_eq_ok.1 hb
    exfalso
    rcases hv with hv | hv
    · apply hfits
      rw [hv.unique hleast]
      exact hl
    · apply hfits
      rw [hv.unique hgreatest]
      exact hu

/-- Bounds have no other error than an overflow, of an extreme value or of a sum on the way. -/
theorem HasValues.of_bounds_eq_error (hp : p.HasValues) (he : e.Below p.columns.size)
    {error : LoweringError} (h : p.bounds e = .error error) : error = .overflow ∧
      (¬ p.SumsFit e ∨ ∃ v, (IsLeast (e.eval '' p.box) v ∨ IsGreatest (e.eval '' p.box) v) ∧
        ¬ Word.Fits v) := by
  have hexact := ranges_of_below he
  obtain ⟨herror, hwide | hl | hu⟩ := bounds_eq_error he h
  · exact ⟨herror, .inl hwide⟩
  · exact ⟨herror, .inr ⟨_, .inl (hp.isLeast hexact), hl⟩⟩
  · exact ⟨herror, .inr ⟨_, .inr (hp.isGreatest hexact), hu⟩⟩

/-- A decision is right everywhere within the column bounds, also where rows exclude it. -/
theorem HasValues.holds_iff_of_truth (hp : p.HasValues) {b : Bool}
    (h : p.truth r = .ok (some b)) (hx : x ∈ p.box) : r.Holds x ↔ b = true := by
  obtain ⟨d, lower, upper, hd, hb, hdecided⟩ := truth_eq_ok h
  have hmem := (ranges_of_bounds hb).within x (hp.spans_iff.2 hx)
  rw [r.holds_iff_difference hd]
  exact Comparison.holds_of_decided hdecided.symm hmem.1 hmem.2

theorem HasValues.exists_of_undecided (hp : p.HasValues) (h : p.truth r = .ok none) :
    ∃ lower upper, IsLeast ((fun x => r.lhs.eval x - r.rhs.eval x) '' p.box) lower ∧
      IsGreatest ((fun x => r.lhs.eval x - r.rhs.eval x) '' p.box) upper ∧
      (∃ v, lower ≤ v ∧ v ≤ upper ∧ r.op.Holds v 0) ∧
      ∃ v, lower ≤ v ∧ v ≤ upper ∧ ¬ r.op.Holds v 0 := by
  obtain ⟨d, lower, upper, hd, hb, hundecided⟩ := truth_eq_ok h
  have heval : d.eval = fun x : Assignment => r.lhs.eval x - r.rhs.eval x :=
    funext (Affine.eval_of_minus hd)
  obtain ⟨hleast, hgreatest⟩ := hp.extremes_of_bounds hb
  have hboth := Comparison.exists_of_undecided (le_of_bounds hb) hundecided.symm
  rw [← heval]
  exact ⟨lower, upper, hleast, hgreatest, hboth.1, hboth.2⟩

/-- Where every column has a value, the bounds of a form are its smallest and its largest value
within the column bounds, and they overflow where one of these is no word. They also overflow where
a sum on the way is too large, but the products of words that are added never are. A decision about
a relation is its truth everywhere within the column bounds. Without a decision, the exact interval
of the difference of the sides has integers of both kinds. -/
theorem bounds_exact (hp : p.HasValues) (he : e.Below p.columns.size) (r : Relation) :
    (∀ lower upper, p.bounds e = .ok (lower, upper) →
      IsLeast (e.eval '' p.box) lower ∧ IsGreatest (e.eval '' p.box) upper) ∧
    (∀ v, IsLeast (e.eval '' p.box) v ∨ IsGreatest (e.eval '' p.box) v → ¬ Word.Fits v →
      p.bounds e = .error .overflow) ∧
    (∀ error, p.bounds e = .error error → error = .overflow ∧
      (¬ p.SumsFit e ∨ ∃ v, (IsLeast (e.eval '' p.box) v ∨ IsGreatest (e.eval '' p.box) v) ∧
        ¬ Word.Fits v)) ∧
    (∀ t ∈ e.terms, ∀ c ∈ p.columns[t.column]?, Word.Fits t.coefficient → Word.Fits c.lower →
      Word.Fits c.upper → WideWord.Fits (t.coefficient * c.lower) ∧
        WideWord.Fits (t.coefficient * c.upper)) ∧
    (∀ b, p.truth r = .ok (some b) → ∀ x ∈ p.box, (r.Holds x ↔ b = true)) ∧
    (p.truth r = .ok none → ∃ lower upper,
      IsLeast ((fun x => r.lhs.eval x - r.rhs.eval x) '' p.box) lower ∧
      IsGreatest ((fun x => r.lhs.eval x - r.rhs.eval x) '' p.box) upper ∧
      (∃ v, lower ≤ v ∧ v ≤ upper ∧ r.op.Holds v 0) ∧
      ∃ v, lower ≤ v ∧ v ≤ upper ∧ ¬ r.op.Holds v 0) :=
  ⟨fun _ _ => hp.extremes_of_bounds, fun _ => hp.bounds_eq_overflow he,
    fun _ => hp.of_bounds_eq_error he,
    fun _ _ _ _ ht hl hu => ⟨WideWord.fits_mul ht hl, WideWord.fits_mul ht hu⟩,
    fun _ h _ => hp.holds_iff_of_truth h, hp.exists_of_undecided⟩

/-- With `x` from -7 to 5 and `y` from 0 to 3, the form `2 * x - y + 1` lies between -16 and 11,
and `x ≤ 5` is decided. -/
theorem bounds_exact_of_two :
    let p : Ilp := { empty 0 with columns := #[⟨"x", -7, 5, false⟩, ⟨"y", 0, 3, false⟩] }
    let e := Affine.single 0 2 + Affine.single 1 (-1) + Affine.const 1
    let r : Relation := ⟨Affine.ofColumn 0, .le, Affine.const 5⟩
    IsLeast (e.eval '' p.box) (-16) ∧ IsGreatest (e.eval '' p.box) 11 ∧
      ∀ x ∈ p.box, r.Holds x := by
  intro p e r
  have hp : p.HasValues := by decide
  have he : e.Below p.columns.size := by decide
  obtain ⟨hok, -, -, -, htruth, -⟩ := bounds_exact hp he r
  obtain ⟨hleast, hgreatest⟩ := hok (-16) 11 (by decide)
  exact ⟨hleast, hgreatest, fun x hx => (htruth true (by decide) x hx).2 rfl⟩

end Ilp

end Linearization
