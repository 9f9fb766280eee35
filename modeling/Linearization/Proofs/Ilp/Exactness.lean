import Linearization.Proofs.Ilp.Calls

/-!
# Exact values

What a program that calls have built promises of the form that a lowering returns: every earlier
solution extends to the columns and rows that the call has appended, and the form has the value in
each of them.

Absolute value, product and power are exact without a condition on the values
(`Reaches.arithmetic_exact`); a power only asks that its exponent is not negative, and the power
with the exponent zero is one, that of zero too. For a division the bounds of the divisor moreover
lie on one side of zero, so the value is defined whatever the solution (`Reaches.division_exact`).
Quotient and remainder are those that `tdiv_tmod_iff` determines: the remainder is smaller than the
divisor and never has the opposite sign of the dividend.
-/

namespace Linearization

variable {p q : Ilp} {a b c : Affine}

namespace Ilp

/-- The form has bounds, and they lie on one side of zero. -/
def ExcludesZero (p : Ilp) (b : Affine) : Prop :=
  ∃ lower upper, p.bounds b = .ok (lower, upper) ∧ (upper < 0 ∨ 0 < lower)

theorem bounds_of_asConstant {k : Int} (hb : b.Fits) (h : b.asConstant = some k) :
    p.bounds b = .ok (k, k) := by
  obtain ⟨hterms, rfl⟩ : b.terms = [] ∧ b.constant = k := by
    unfold Affine.asConstant at h
    split at h
    · rename_i hterms
      exact ⟨hterms, Option.some.inj h⟩
    · cases h
  refine bounds_eq_ok.2 ⟨?_, hb.1, hb.1⟩
  rw [hterms]
  rfl

end Ilp

namespace Lowering

open Ilp

/-- The guards of a division of forms that vary refuse every divisor whose bounds hold zero. -/
theorem excludesZero_of_variableDivision {d r : Affine}
    (h : variableDivision a b p = .ok (d, r) q) : p.ExcludesZero b := by
  unfold variableDivision at h
  simp only [bind_eq_ok, bounds_eq_ok] at h
  obtain ⟨⟨lower, upper⟩, _, ⟨hbounds, rfl⟩, h⟩ := h
  dsimp only at h
  split at h
  · cases throw_eq_ok.1 h
  split at h
  · cases throw_eq_ok.1 h
  · rename_i hopen
    exact ⟨lower, upper, hbounds, by omega⟩

theorem excludesZero_of_divide {d r : Affine} (hb : b.Fits) (h : divide a b p = .ok (d, r) q) :
    p.ExcludesZero b := by
  unfold divide at h
  cases ha : a.asConstant with
  | none =>
    rw [ha] at h
    exact excludesZero_of_variableDivision h
  | some v =>
  cases hw : b.asConstant with
  | none =>
    rw [ha, hw] at h
    exact excludesZero_of_variableDivision h
  | some w =>
    rw [ha, hw] at h
    dsimp only at h
    split at h
    · cases throw_eq_ok.1 h
    · exact ⟨w, w, bounds_of_asConstant hb hw, by omega⟩

end Lowering

namespace Ilp

open Lowering

/-- Every solution of the program extends to the other one, in all of whose solutions the form has
the value. -/
def GivesValue (p q : Ilp) (c : Affine) (f : Assignment → Int) : Prop :=
  (∀ x, p.Solves x → ∃ y, AgreeBelow p.columns.size x y ∧ q.Solves y) ∧
    ∀ y, q.Solves y → c.eval y = f y

theorem Computes.givesValue {f : Assignment → Int} (h : p.Computes q c f) :
    p.GivesValue q c f :=
  ⟨fun x hx => h.defines.complete x hx trivial, h.defines.sound⟩

/-- In a program that calls have built, a division that succeeds has a divisor whose bounds exclude
zero, leaves every solution in place and returns the truncated quotient, or the remainder with the
sign of the dividend. The coefficients of the divisor are words, as those of every form are. -/
theorem Reaches.division_exact {limit : Nat} (hp : (empty limit).Reaches p) (hb : b.Fits) :
    (∀ c q, quotient a b p = .ok c q → p.ExcludesZero b ∧
      p.GivesValue q c fun y => (a.eval y).tdiv (b.eval y)) ∧
    ∀ c q, remainder a b p = .ok c q → p.ExcludesZero b ∧
      p.GivesValue q c fun y => (a.eval y).tmod (b.eval y) := by
  have hwf : p.WellFormed := hp.wellFormed (.empty limit)
  constructor
  · intro c q h
    obtain ⟨⟨d, r⟩, _, hdivide, -⟩ := bind_eq_ok.1 h
    exact ⟨excludesZero_of_divide hb hdivide, (computes_of_quotient hwf h).1.givesValue⟩
  · intro c q h
    obtain ⟨⟨d, r⟩, _, hdivide, -⟩ := bind_eq_ok.1 h
    exact ⟨excludesZero_of_divide hb hdivide, (computes_of_remainder hwf h).1.givesValue⟩

/-- A dividend whose sign is open and a divisor that takes four negative values. -/
theorem Reaches.division_exact_of_negative :
    let p := (empty 4096).afterCalls [.newInt (-7) 5 "x", .newInt (-4) (-1) "y"]
    ∃ c q, remainder (.ofColumn 0) (.ofColumn 1) p = .ok c q ∧ p.ExcludesZero (.ofColumn 1) ∧
      p.GivesValue q c fun y => (y 0).tmod (y 1) := by
  intro p
  have hp : (empty 4096).Reaches p := Reaches.refl.afterCalls _
  have hrun : succeedsWith (remainder (.ofColumn 0) (.ofColumn 1)) p (fun _ _ => true) = true := by
    decide +kernel
  obtain ⟨c, q, h, -⟩ := exists_of_succeedsWith hrun
  have hexact := (division_exact (a := .ofColumn 0) hp (b := .ofColumn 1) (by decide)).2 c q h
  simp only [Affine.eval_ofColumn] at hexact
  exact ⟨c, q, h, hexact⟩

/-- In a program that calls have built, an absolute value, a product or a power that succeeds leaves
every solution in place and returns the exact integer, however the forms share columns. -/
theorem Reaches.arithmetic_exact {limit : Nat} (hp : (empty limit).Reaches p)
    (ha : a.Below p.columns.size) (hb : b.Below p.columns.size) :
    (∀ c q, absolute a p = .ok c q → p.GivesValue q c fun y => |a.eval y|) ∧
    (∀ c q, product a b p = .ok c q → p.GivesValue q c fun y => a.eval y * b.eval y) ∧
    ∀ exponent c q, power a exponent p = .ok c q → 0 ≤ exponent ∧
      p.GivesValue q c fun y => a.eval y ^ exponent.toNat := by
  have hwf : p.WellFormed := hp.wellFormed (.empty limit)
  refine ⟨fun c q h => ?_, fun c q h => (computes_of_product hwf ha hb h).givesValue,
    fun exponent c q h => ?_⟩
  · have habs := (computes_of_absolute hwf h).givesValue
    simpa only [Int.natCast_natAbs] using habs
  · obtain ⟨hexponent, hpower⟩ := computes_of_power hwf ha h
    exact ⟨hexponent, hpower.givesValue⟩

/-- The absolute value of a column with both signs, its product with itself and its cube, which go
through the encoding of the column. -/
theorem Reaches.arithmetic_exact_of_shared :
    let p := (empty 4096).afterCalls [.newInt (-3) 5 "x"]
    let x : Affine := .ofColumn 0
    (∃ c q, absolute x p = .ok c q ∧ p.GivesValue q c fun y => |y 0|) ∧
    (∃ c q, product x x p = .ok c q ∧ p.GivesValue q c fun y => y 0 * y 0) ∧
    ∃ c q, power x 3 p = .ok c q ∧ p.GivesValue q c fun y => y 0 ^ 3 := by
  intro p x
  have hp : (empty 4096).Reaches p := Reaches.refl.afterCalls _
  have hx : x.Below p.columns.size := by decide +kernel
  obtain ⟨habs, hmul, hpow⟩ := arithmetic_exact hp hx hx
  simp only [x, Affine.eval_ofColumn] at habs hmul hpow
  have habsolute : succeedsWith (absolute x) p (fun _ _ => true) = true := by decide +kernel
  have hproduct : succeedsWith (product x x) p (fun _ _ => true) = true := by decide +kernel
  have hpower : succeedsWith (power x 3) p (fun _ _ => true) = true := by decide +kernel
  obtain ⟨c₁, q₁, h₁, -⟩ := exists_of_succeedsWith habsolute
  obtain ⟨c₂, q₂, h₂, -⟩ := exists_of_succeedsWith hproduct
  obtain ⟨c₃, q₃, h₃, -⟩ := exists_of_succeedsWith hpower
  exact ⟨⟨c₁, q₁, h₁, habs c₁ q₁ h₁⟩, ⟨c₂, q₂, h₂, hmul c₂ q₂ h₂⟩, c₃, q₃, h₃,
    (hpow 3 c₃ q₃ h₃).2⟩

end Ilp

end Linearization
