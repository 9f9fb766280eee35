import Linearization.Proofs.Expr.Circuit

/-!
# Globals mean their decompositions

As a constraint a global holds exactly if the variables that its decomposition introduces can be
chosen so that every member holds (`holds_iff_decompose`). As a value, a flat global is the truth of
all members, where these have values (`value?_of_decompose`).
-/

namespace Linearization

open Linearization.Valuation

variable {σ : Valuation} {a b : Expr} {args : List Expr} {g : Global} {n : Nat} {d : Decomposition}

theorem holdsAll_eq_all (σ : Valuation) (es : List Expr) :
    holdsAll σ es = es.all (Expr.holds σ) := by
  rw [Bool.eq_iff_iff, holdsAll_iff, List.all_eq_true]

theorem all_zipWith {α β γ : Type} (p : γ → Bool) (f : α → β → γ) (as : List α) (bs : List β) :
    (as.zipWith f bs).all p = (as.zip bs).all fun (a, b) => p (f a b) := by
  rw [← List.map_uncurry_zip_eq_zipWith, List.all_map]
  rfl

theorem ofTruth_ne_zero (b : Bool) : decide (ofTruth b ≠ 0) = b := by cases b <;> rfl

/-! ## As constraints -/

theorem holds_unlessZero (σ : Valuation) (a b : Expr) :
    ((Expr.all [a.differs (.const 0), b.differs (.const 0)]).implies (a.differs b)).holds σ =
      (!Comparison.eq.holds? (a.value? σ) (b.value? σ) || a.value? σ == some 0) := by
  show (!(Expr.op .and [a.differs (.const 0), b.differs (.const 0)]).isTrue σ ||
    (a.differs b).holds σ) = _
  have hnone : a.value? σ = none ∨ b.value? σ = none →
      (Expr.op .and [a.differs (.const 0), b.differs (.const 0)]).isTrue σ = false := by
    rintro (h | h) <;> simp [Expr.isTrue, Expr.value?, valuesOf, Expr.differs, h]
  cases ha : a.value? σ with
  | none => simp [hnone (.inl ha), Comparison.holds?]
  | some v =>
    cases hb : b.value? σ with
    | none => simp [hnone (.inr hb), Comparison.holds?]
    | some w =>
      have hsome : ∀ e ∈ [a.differs (.const 0), b.differs (.const 0)], (e.value? σ).isSome := by
        simp [Expr.differs, ha, hb, Expr.value?]
      have hnotlist : ∀ es, a ≠ .list es := ne_list_of_isSome (by rw [ha]; rfl)
      have hnotlist' : ∀ es, b ≠ .list es := ne_list_of_isSome (by rw [hb]; rfl)
      rw [isTrue_and hsome]
      simp only [List.all_cons, List.all_nil, Expr.differs, isTrue_compare, ha, hb, Expr.value?,
        holds_compare hnotlist hnotlist']
      rw [Bool.eq_iff_iff]
      simp only [Bool.or_eq_true, Bool.not_eq_true', Bool.and_true, Bool.and_eq_true,
        ← Bool.not_eq_true, holds?_ne_some, holds?_some_eq, beq_iff_eq, Option.some.injEq]
      omega

/-- The global holds exactly if the introduced variables can be chosen so that every member does.
-/
theorem holds_iff_decompose (h : g.decompose n = some d)
    (hnative : ∀ args, g ≠ .plain .allDifferent args)
    (hfresh : ∀ args, g = .plain .circuit args → FreshFor d.newVars args) :
    g.holds σ = true ↔ ∃ τ ∈ σ.extensions d.newVars, holdsAll τ d.constraints = true := by
  have hnone : ∀ cs : List Expr, (∃ τ ∈ σ.extensions [], holdsAll τ cs = true) ↔
      cs.all (Expr.holds σ) = true := fun cs => by simp [extensions, holdsAll_eq_all]
  cases g with
  | plain kind args =>
    cases kind with
    | allDifferent => exact absurd rfl (hnative args)
    | allDifferentExceptZero =>
      cases h
      rw [hnone, all_pairwise]
      simp only [holds_unlessZero]
      show (Expr.global (.plain .allDifferentExceptZero args)).isTrue σ = true ↔ _
      rw [Expr.isTrue, Expr.value?, Global.value?, valuesOf_eq_map]
      show decide (ofTruth (everyPair _ (args.map (Expr.value? σ))) ≠ 0) = true ↔ _
      rw [everyPair_map, ofTruth_ne_zero]
    | allEqual =>
      cases h
      rw [hnone, all_consecutive, Global.holds, everyStep_map]
      exact Iff.rfl
    | circuit =>
      cases h
      exact holds_circuit_iff (hfresh args rfl)
    | min => cases h
    | max => cases h
  | count args value => cases h
  | cardinality args values counts =>
    cases h
    rw [hnone, all_zipWith, Global.holds]
    exact Iff.rfl
  | named name args => cases h
  | defined name args constraints newVars =>
    cases h
    rw [Global.holds, List.any_eq_true]

/-! ## As values -/

/-- Relations that agree where a pair has become a member agree on all pairs. -/
theorem everyPair_congr {f : Expr → Expr → Expr} {r s : Expr → Expr → Bool} {P : Expr → Prop}
    {es : List Expr} (h : ∀ c ∈ pairwise f es, P c) (hrs : ∀ a b, P (f a b) → r a b = s a b) :
    everyPair r es = everyPair s es := by
  induction es with
  | nil => rfl
  | cons e es ih =>
    have hfirst : es.all (r e) = es.all (s e) := by
      rw [Bool.eq_iff_iff, List.all_eq_true, List.all_eq_true]
      refine forall₂_congr fun b hb => ?_
      rw [hrs e b (h _ (List.mem_append_left _ (List.mem_map_of_mem hb)))]
    rw [everyPair, everyPair, hfirst, ih fun c hc => h c (List.mem_append_right _ hc)]

theorem isTrue_implies (h : ((a.implies b).value? σ).isSome) :
    (a.value? σ).isSome ∧ (b.value? σ).isSome ∧
      (a.implies b).isTrue σ = (!a.isTrue σ || b.isTrue σ) := by
  unfold Expr.isTrue
  rw [Expr.implies, Expr.value?, valuesOf, valuesOf, valuesOf] at h ⊢
  cases ha : a.value? σ with
  | none => simp [ha] at h
  | some v =>
    cases hb : b.value? σ with
    | none => simp [ha, hb] at h
    | some w =>
      refine ⟨rfl, rfl, ?_⟩
      show decide (ofTruth (v = 0 || w ≠ 0) ≠ 0) = (!decide (v ≠ 0) || decide (w ≠ 0))
      rw [ofTruth_ne_zero]
      simp

theorem isTrue_unlessZero
    (h : (((Expr.all [a.differs (.const 0), b.differs (.const 0)]).implies
      (a.differs b)).value? σ).isSome) :
    ((Expr.all [a.differs (.const 0), b.differs (.const 0)]).implies (a.differs b)).isTrue σ =
      (!Comparison.eq.holds? (a.value? σ) (b.value? σ) || a.value? σ == some 0) := by
  obtain ⟨hboth, hdiffers, heq⟩ := isTrue_implies h
  obtain ⟨ha, hb⟩ := isSome_compare.1 hdiffers
  have hholds : (a.differs b).holds σ = (a.differs b).isTrue σ := by
    rw [Expr.differs, isTrue_compare, holds_compare (ne_list_of_isSome ha) (ne_list_of_isSome hb)]
  rw [heq, ← holds_unlessZero σ a b, Expr.implies, Expr.holds, hholds]

/-- A flat global has the truth value of all members of its decomposition, where these have values.
-/
theorem value?_of_decompose (hflat : (Expr.global g).Flat) (h : g.decompose n = some d)
    (hsome : ∀ c ∈ d.constraints, (c.value? σ).isSome) :
    (Expr.global g).value? σ = some (ofTruth (d.constraints.all (Expr.isTrue σ))) := by
  rw [Expr.value?]
  cases g with
  | plain kind args =>
    rw [Global.value?, valuesOf_eq_map]
    cases kind with
    | allDifferent =>
      cases h
      rw [GlobalKind.apply, everyPair_map, all_pairwise]
      simp only [Expr.differs, isTrue_compare]
    | allDifferentExceptZero =>
      cases h
      rw [GlobalKind.apply, everyPair_map, all_pairwise]
      exact congrArg _ (congrArg _ (everyPair_congr hsome fun a b hc =>
        (isTrue_unlessZero hc).symm))
    | allEqual =>
      cases h
      rw [GlobalKind.apply, everyStep_map, all_consecutive]
      simp only [Expr.equals, isTrue_compare]
    | circuit =>
      cases hflat with
      | plain hkind _ => exact absurd rfl hkind
    | min => cases h
    | max => cases h
  | count args value => cases h
  | cardinality args values counts =>
    cases h
    rw [Global.value?, countsHold, valuesOf_eq_map σ counts, List.zip_map_right, List.all_map,
      all_zipWith]
    simp only [Expr.equals, isTrue_compare]
    rfl
  | named name args => cases h
  | defined name args constraints newVars =>
    cases hflat
    cases h
    rw [Global.value?]
    simp only [Valuation.extensions, List.any_cons, List.any_nil, Bool.or_false, valuesOf_eq_map,
      List.all_map]
    rfl

end Linearization
