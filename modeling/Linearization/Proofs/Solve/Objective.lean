import Linearization.Proofs.Ilp.Rounding
import Linearization.Translation.Basic

/-!
# The reported objective

What is written back are the values rounded one by one, while the objective is evaluated at the
values as they are and rounded once. The two drift apart by at most the tolerance times the weight
of the objective, and the report agrees with what was written back exactly when the drift is less
than a half, up to ties and to the ends of the word range (`objectiveValue_rounded_iff`).
Coefficients whose absolute values sum to less than 50000 are always safe.
-/

namespace Linearization

namespace Word

/-- A half that is rounded away from zero, or less than a half away. -/
def Nearest (q : Rat) (n : Int) : Prop := 2 * |q - n| < 1 ∨ 2 * |q - n| = 1 ∧ |q| < |(n : Rat)|

/-- The ends of the range also stand for everything beyond them. -/
theorem clamp_eq_iff {m n : Int} :
    clamp m = n ↔ Fits n ∧ (m = n ∨ n = greatest ∧ n ≤ m ∨ n = least ∧ m ≤ n) := by
  unfold clamp Fits least greatest
  omega

theorem le_roundHalfAway {q : Rat} {n : Int} (h : (n : Rat) ≤ q) : n ≤ roundHalfAway q := by
  by_contra hlt
  have hle : (roundHalfAway q : Rat) + 1 ≤ n := by exact_mod_cast not_le.1 hlt
  rcases roundHalfAway_eq_iff.1 (rfl : roundHalfAway q = _) with hnear | ⟨htie, -⟩
  all_goals rw [abs_of_nonneg (by linarith)] at *; linarith

theorem roundHalfAway_le {q : Rat} {n : Int} (h : q ≤ n) : roundHalfAway q ≤ n := by
  by_contra hlt
  have hle : (n : Rat) + 1 ≤ roundHalfAway q := by exact_mod_cast not_le.1 hlt
  rcases roundHalfAway_eq_iff.1 (rfl : roundHalfAway q = _) with hnear | ⟨htie, -⟩
  all_goals rw [abs_of_nonpos (by linarith)] at *; linarith

/-- The word that a rational is rounded to: the nearest integer, or the end of the range that it
lies beyond. -/
theorem toWord_eq_iff {q : Rat} {n : Int} :
    (Scalar.toWord q : Int) = n ↔
      Fits n ∧ (Nearest q n ∨ n = greatest ∧ (n : Rat) ≤ q ∨ n = least ∧ q ≤ n) := by
  show clamp (roundHalfAway q) = n ↔ _
  rw [clamp_eq_iff]
  refine and_congr_right fun _ => ?_
  constructor
  · rintro (hround | ⟨hend, hle⟩ | ⟨hend, hle⟩)
    · exact .inl (roundHalfAway_eq_iff.1 hround)
    · rcases le_total (n : Rat) q with hq | hq
      · exact .inr (.inl ⟨hend, hq⟩)
      · exact .inl (roundHalfAway_eq_iff.1 (le_antisymm (roundHalfAway_le hq) hle))
    · rcases le_total (n : Rat) q with hq | hq
      · exact .inl (roundHalfAway_eq_iff.1 (le_antisymm hle (le_roundHalfAway hq)))
      · exact .inr (.inr ⟨hend, hq⟩)
  · rintro (hnear | ⟨hend, hq⟩ | ⟨hend, hq⟩)
    · exact .inl (roundHalfAway_eq_iff.2 hnear)
    · exact .inr (.inl ⟨hend, le_roundHalfAway hq⟩)
    · exact .inr (.inr ⟨hend, roundHalfAway_le hq⟩)

end Word

namespace Translation

open Ilp (rounded)

variable {t : Translation} {values : Array Rat}

theorem value_rounded (image : Image) :
    image.value (rounded values) = image.value (assignmentOf values) := by
  have hcolumn : ∀ i, (Scalar.toWord (rounded values i) : Int) =
      Scalar.toWord (assignmentOf values i) := fun i => Word.clamp_eq_self (Word.fits_clamp _)
  cases image with
  | bool l => simp only [Image.value, Literal.value, hcolumn]
  | int column => exact hcolumn column

theorem writeBack_rounded (vs : List Var) (slots : Slots) :
    t.writeBack (rounded values) vs slots = t.writeBack (assignmentOf values) vs slots := by
  unfold writeBack
  simp only [value_rounded]

/-- The objective at the values is near to the objective at the rounded ones. -/
theorem abs_eval_sub_le (hwords : t.program.HasWordBounds)
    (h : t.program.accepts values = true) (e : Affine) :
    |e.eval (assignmentOf values) - e.eval (rounded values)| ≤
      Term.weight e.terms * (1 / 100000) := by
  have hdrift := Term.abs_sum_sub_le e.terms fun u _ =>
    Ilp.near_of_accepts hwords h u.column
  have hconstant : e.eval (assignmentOf values) - e.eval (rounded values) =
      Term.sum (assignmentOf values) e.terms - Term.sum (rounded values) e.terms := by
    show Term.sum (assignmentOf values) e.terms + (e.constant : Rat) -
      ((Term.sum (rounded values) e.terms + e.constant : Int) : Rat) = _
    push_cast
    ring
  rwa [hconstant]

/-- The report is the objective of the rounded values exactly when that is a word and the nearest
one to the objective of the values, or an end of the range that these lie beyond; and it always is
when it is a word and the coefficients have a weight below 50000. -/
theorem objectiveValue_rounded_iff {direction : Direction} {e : Affine}
    (ho : t.program.objective = some (direction, e)) (hwords : t.program.HasWordBounds)
    (h : t.program.accepts values = true) :
    let reported := t.objectiveValue (assignmentOf values)
    let value := e.eval (assignmentOf values)
    let exact := e.eval (rounded values)
    (reported = some exact ↔ Word.Fits exact ∧ (Word.Nearest value exact ∨
      exact = Word.greatest ∧ (exact : Rat) ≤ value ∨
      exact = Word.least ∧ value ≤ exact)) ∧
    (Word.Fits exact → Term.weight e.terms < 50000 → reported = some exact) := by
  intro reported value exact
  have hreported : reported = some (Scalar.toWord value) := by
    show t.program.objective.map _ = _
    rw [ho]
    rfl
  have hiff : reported = some exact ↔ Word.Fits exact ∧ (Word.Nearest value exact ∨
      exact = Word.greatest ∧ (exact : Rat) ≤ value ∨ exact = Word.least ∧ value ≤ exact) := by
    rw [hreported, Option.some_inj, Word.toWord_eq_iff]
  refine ⟨hiff, fun hfits hweight => hiff.2 ⟨hfits, .inl (.inl ?_)⟩⟩
  have hdrift : |value - exact| ≤ Term.weight e.terms * (1 / 100000) :=
    abs_eval_sub_le hwords h e
  have hlt : (Term.weight e.terms : Rat) < 50000 := by exact_mod_cast hweight
  linarith

/-- Two numbers that are a little off, and an objective of weight 1001. -/
theorem objectiveValue_rounded_of_near :
    let program := (Ilp.empty 4096).afterCalls [.newInt 0 5 "x", .newInt 0 5 "y",
      .setObjective .maximize (.single 0 1000 + .single 1 (-1))]
    let t : Translation := ⟨program, {}, 2⟩
    let values : Array Rat := #[2000001 / 1000000, 999999 / 1000000]
    program.HasWordBounds ∧ program.accepts values = true ∧
      t.objectiveValue (assignmentOf values) = some 1999 := by
  intro program t values
  have hwords : program.HasWordBounds := by decide +kernel
  have haccepts : program.accepts values = true := by decide +kernel
  have ho : program.objective = some (.maximize, .single 0 1000 + .single 1 (-1)) := by
    decide +kernel
  obtain ⟨-, hexact⟩ := objectiveValue_rounded_iff (t := t) ho hwords haccepts
  have heval : (Affine.single 0 1000 + .single 1 (-1)).eval (rounded values) = 1999 := by
    decide +kernel
  rw [heval] at hexact
  exact ⟨hwords, haccepts, hexact (by decide) (by decide +kernel)⟩

/-- Maximizing 200000 times a number: at 0.000005 the report is one, and zero is written back. -/
theorem objectiveValue_drifts :
    let program := (Ilp.empty 4096).afterCalls [.newInt 0 1 "x",
      .setObjective .maximize (.single 0 200000)]
    let t : Translation := ⟨program, {}, 1⟩
    let values : Array Rat := #[5 / 1000000]
    program.HasWordBounds ∧ program.accepts values = true ∧
      program.objective = some (.maximize, .single 0 200000) ∧
      t.objectiveValue (assignmentOf values) = some 1 ∧
      (Affine.single 0 200000).eval (rounded values) = 0 := by
  decide +kernel

end Translation

end Linearization
