import Linearization.Proofs.Translation.Constraint
import Linearization.Proofs.Translation.Safety

/-!
# Globals as truth values

A boolean global that is used as a value becomes the literal of the conjunction of its
decomposition. The variables that the decomposition introduces are free, so every choice of them is
taken in some solution (`Draft.Reifies`): the literal is true only where the global holds, but it
may be false there as well. It is the truth value of the global exactly if no choice of the
introduced variables makes a member false where the global holds (`lower_global_exact_iff`).
-/

namespace Linearization

open Linearization.Valuation

variable {t t' : Draft} {g : Global} {d : Decomposition} {n : Lowered} {l : Literal}
  {σ τ : Valuation} {config : Config} {limit levels : Nat}

/-- The literal is the truth value of the members for the values of the introduced variables, and
these can be chosen. -/
structure Draft.Reifies (t t' : Draft) (d : Decomposition) (l : Literal) : Prop where
  grows : t.program.Grows t'.program
  complete : ∀ x, t.program.Solves x → ∀ τ ∈ (t.layout.valuation x).extensions d.newVars,
    ∃ y, AgreeBelow t.program.columns.size x y ∧ t'.program.Solves y ∧
      (l.Holds y ↔ d.constraints.all (Expr.isTrue τ) = true)
  sound : ∀ y, t'.program.Solves y → ∃ τ ∈ (t.layout.valuation y).extensions d.newVars,
    (∀ c ∈ d.constraints, (c.value? τ).isSome) ∧
      (l.Holds y ↔ d.constraints.all (Expr.isTrue τ) = true)

namespace Translate

theorem lowerGlobal_of_decompose {deeper : Option Deeper} {m : Nat} (hd : g.decompose m = some d) :
    lowerGlobal limit deeper g = reifyGlobal limit deeper g := by
  cases g with
  | plain kind args =>
    cases kind with
    | min => cases hd
    | max => cases hd
    | _ => rfl
  | count args value => cases hd
  | cardinality args values counts => rfl
  | named name args => cases hd
  | defined name args constraints newVars => rfl

/-- The literal is that of the conjunction, lowered when the introduced variables are registered. -/
theorem lowerWithin_global_eq_ok (hexpands : t.Expands g d)
    (hd : g.decompose t.program.columns.size = some d)
    (h : lowerWithin limit levels (.global g) t = .ok n t') :
    ∃ left l, n = .literal l ∧ nested (do
      let value ← lowerWithin limit left (Expr.all d.constraints)
      build (Expr.all d.constraints) (Lowering.literalOf value))
        ((t.withVars d.newVars).logged g) = .ok l t' := by
  cases levels with
  | zero =>
    rw [lowerWithin, lower, lowerGlobal_of_decompose hd] at h
    obtain ⟨_, _, h, -⟩ := bind_eq_ok.1 h
    cases throw_eq_ok.1 h
  | succ left =>
    rw [lowerWithin, lower, lowerGlobal_of_decompose hd] at h
    obtain ⟨⟨level, cs⟩, t₁, h₁, h⟩ := bind_eq_ok.1 h
    obtain ⟨hlevel, d', hd', rfl, rfl⟩ := expand_eq_ok h₁
    cases hlevel
    cases hd.symm.trans hd'
    rw [hexpands.withVars_eq] at h
    obtain ⟨l, t₂, h₂, h⟩ := bind_eq_ok.1 h
    obtain ⟨rfl, rfl⟩ := pure_eq_ok.1 h
    exact ⟨left, l, rfl, h₂⟩

theorem all_isTrue_congr {r : Layout} {cs : List Expr} (hcs : ∀ c ∈ cs, r.Covers c)
    (h : ∀ v, r.Has v → σ v.toVarKey = τ v.toVarKey) :
    cs.all (Expr.isTrue σ) = cs.all (Expr.isTrue τ) := by
  rw [Bool.eq_iff_iff, List.all_eq_true, List.all_eq_true]
  exact forall₂_congr fun c hc => by rw [isTrue_congr ((hcs c hc).agree h)]

theorem reifies_lowerGlobal (hwf : t.WellFormed) (hexpands : t.Expands g d)
    (hd : g.decompose t.program.columns.size = some d) (hmembers : ∀ c ∈ d.constraints, c.Flat)
    (h : lowerWithin limit levels (.global g) t = .ok n t') :
    ∃ l, n = .literal l ∧ t.Reifies t' d l := by
  obtain ⟨left, l, rfl, hrun⟩ := lowerWithin_global_eq_ok hexpands hd h
  have hlevel : ExactLevel ⟨lowerWithin limit left, imposeWithin limit left⟩ :=
    fun e he => exact_lowerWithin limit left he
  have hwf₁ := hexpands.wellFormed hwf
  have hgrows := (t.grows_withVars d.newVars).program
  obtain ⟨htruth, hdefines⟩ := defines_conjunction hlevel hmembers (hwf₁.logged g)
    hexpands.covers hrun
  have hholds : ∀ y, t'.program.Solves y → (l.Holds y ↔
      d.constraints.all (Expr.isTrue ((t.withVars d.newVars).layout.valuation y)) = true) := by
    intro y hy
    have hvalue := (hdefines.sound hy).2
    rw [htruth.eval_eq_ofTruth hy] at hvalue
    by_cases hl : l.Holds y <;> simp_all [ofTruth]
  refine ⟨l, rfl, hgrows.trans hdefines.defines.grows, fun x hx τ hτ => ?_, fun y hy => ?_⟩
  · obtain ⟨y, hxy, hy, hτy⟩ := hexpands.exists_values hwf hx hτ
    obtain ⟨z, hyz, hz⟩ := hdefines.defines.complete y hy trivial
    refine ⟨z, hxy.trans (hyz.mono hgrows.size_le), hz, (hholds z hz).trans ?_⟩
    rw [← hwf₁.valuation_congr hyz, all_isTrue_congr hexpands.covers hτy]
  · exact ⟨_, Draft.valuation_mem_extensions hwf₁ (hdefines.defines.grows.solves hy),
      (hdefines.sound hy).1, hholds y hy⟩

end Translate

/-! ## The meaning of the literal -/

/-- A global is true exactly if the introduced variables can be chosen so that the members are. -/
theorem Draft.Expands.isTrue_iff (h : t.Expands g d) (hpost : (Expr.global g).Postable)
    (hc : t.layout.Covers (.global g)) {m : Nat} (hd : g.decompose m = some d)
    (hsome : d.newVars = [] → ∀ c ∈ d.constraints, (c.value? σ).isSome) :
    (Expr.global g).isTrue σ = true ↔
      ∃ τ ∈ σ.extensions d.newVars, d.constraints.all (Expr.isTrue τ) = true := by
  cases hpost with
  | of_flat hflat =>
    obtain ⟨hnew, -⟩ := hflat.decompose hd
    rw [Expr.isTrue, value?_of_decompose hflat hd (hsome hnew), hnew]
    simp [extensions, ofTruth]
  | circuit hargs =>
    cases hd
    rw [isTrue_circuit_iff (h.freshFor hc)]
    simp only [List.all_eq_true]
  | defined hmembers =>
    cases hd
    rw [Expr.isTrue, Expr.value?, Global.value?, Option.any_some, ofTruth_ne_zero, List.any_eq_true]
    simp only [valuesOf_eq_map, List.all_map]
    rfl

namespace Draft

theorem Reifies.isTrue_of_holds (h : t.Reifies t' d l) (hexpands : t.Expands g d)
    (hpost : (Expr.global g).Postable) (hc : t.layout.Covers (.global g)) {m : Nat}
    (hd : g.decompose m = some d) {y : Assignment} (hy : t'.program.Solves y) (hl : l.Holds y) :
    (Expr.global g).isTrue (t.layout.valuation y) = true := by
  obtain ⟨τ, hτ, hsome, hholds⟩ := h.sound y hy
  refine (hexpands.isTrue_iff hpost hc hd fun hnew => ?_).2 ⟨τ, hτ, hholds.1 hl⟩
  rw [hnew] at hτ
  cases List.mem_singleton.1 hτ
  exact hsome

/-- Lowering a boolean global to a literal excludes no solution, and the literal is true only if the
global is. It is true wherever the global is exactly if no choice of the introduced variables makes
a member false there. -/
theorem Reachable.lower_global_exact_iff (ht : t.Reachable config)
    (hpost : (Expr.global g).Postable) (hd : g.decompose t.program.columns.size = some d)
    (hmembers : ∀ c ∈ d.constraints, c.Flat) (hvars : ∀ v ∈ (Expr.global g).vars, t.layout.Has v)
    (hfresh : t.layout.Fresh (Expr.global g).bound)
    (h : Translate.lowerExpr config (.global g) t = .ok n t') :
    ∃ l, n = .literal l ∧
      (∀ x, t.program.Solves x →
        ∃ y, AgreeBelow t.program.columns.size x y ∧ t'.program.Solves y) ∧
      (∀ y, t'.program.Solves y → l.Holds y →
        (Expr.global g).isTrue (t.layout.valuation y) = true) ∧
      ((∀ y, t'.program.Solves y →
          (l.Holds y ↔ (Expr.global g).isTrue (t.layout.valuation y) = true)) ↔
        ∀ x, t.program.Solves x → (Expr.global g).isTrue (t.layout.valuation x) = true →
          ∀ τ ∈ (t.layout.valuation x).extensions d.newVars,
            d.constraints.all (Expr.isTrue τ) = true) := by
  have hwf := ht.wellFormed
  have hc := Layout.covers_of_vars hvars
  have hexpands := expands_of_postable hwf hpost hc hfresh hd
  obtain ⟨l, rfl, hreifies⟩ := Translate.reifies_lowerGlobal hwf hexpands hd hmembers h
  have hsound := fun y hy => hreifies.isTrue_of_holds hexpands hpost hc hd (y := y) hy
  refine ⟨l, rfl, fun x hx => ?_, hsound, fun hexact x hx htrue τ hτ => ?_, fun hall y hy => ?_⟩
  · obtain ⟨τ, hτ⟩ := hexpands.exists_extension (t.layout.valuation x)
    obtain ⟨y, hxy, hy, -⟩ := hreifies.complete x hx τ hτ
    exact ⟨y, hxy, hy⟩
  · obtain ⟨y, hxy, hy, hholds⟩ := hreifies.complete x hx τ hτ
    rw [hwf.valuation_congr hxy] at htrue
    exact hholds.1 ((hexact y hy).2 htrue)
  · obtain ⟨τ, hτ, -, hholds⟩ := hreifies.sound y hy
    exact ⟨hsound y hy, fun htrue =>
      hholds.2 (hall y (hreifies.grows.solves hy) htrue τ hτ)⟩

/-- The cycle through two nodes. -/
theorem lower_global_exact_iff_of_circuit :
    let b : Var := ⟨⟨.declared 0, .bool⟩, "b"⟩
    let successors : List Expr := [.const 1, .const 0]
    let g : Global := .plain .circuit successors
    let t := stateAfter (Translate.register b) (start 4096)
    let d := circuitDecomposition t.program.columns.size successors
    ∃ n t' l, Translate.lowerExpr {} (.global g) t = .ok n t' ∧ n = .literal l ∧
      (∀ x, t.program.Solves x →
        ∃ y, AgreeBelow t.program.columns.size x y ∧ t'.program.Solves y) ∧
      (∀ y, t'.program.Solves y → l.Holds y →
        (Expr.global g).isTrue (t.layout.valuation y) = true) ∧
      ((∀ y, t'.program.Solves y →
          (l.Holds y ↔ (Expr.global g).isTrue (t.layout.valuation y) = true)) ↔
        ∀ x, t.program.Solves x → (Expr.global g).isTrue (t.layout.valuation x) = true →
          ∀ τ ∈ (t.layout.valuation x).extensions d.newVars,
            d.constraints.all (Expr.isTrue τ) = true) := by
  intro b successors g t d
  have ht : t.Reachable {} := .register .start fun column hc => by cases hc
  have hargs : ∀ e ∈ successors, e.Flat := by simp [successors, Expr.Flat.const]
  have hvars : ∀ v ∈ (Expr.global g).vars, t.layout.Has v := by decide
  have hrun : succeedsWith (Translate.lowerExpr {} (.global g)) t (fun _ _ => true) = true := by
    decide +kernel
  obtain ⟨n, t', h, -⟩ := exists_of_succeedsWith hrun
  obtain ⟨l, hl, hconclusion⟩ := ht.lower_global_exact_iff (.circuit hargs) (d := d) rfl
    (flat_circuitDecomposition hargs) hvars (.nil _) h
  exact ⟨n, t', l, h, hl, hconclusion⟩

/-- The literal of that cycle is false in a solution, in which the order of the nodes is not the
one in which they are visited. -/
theorem circuit_literal_false :
    let b : Var := ⟨⟨.declared 0, .bool⟩, "b"⟩
    let e : Expr := .global (.plain .circuit [.const 1, .const 0])
    let t := stateAfter (Translate.register b) (start 4096)
    let y : Assignment := fun i => [0, 0, 0, 1, 0, 0, 1, 0, 1, 1, 0, 0, 1, 0].getD i 0
    ∃ l t', Translate.lowerExpr {} e t = .ok (.literal l) t' ∧ t'.program.Solves y ∧
      e.isTrue (t.layout.valuation y) = true ∧ ¬ l.Holds y := by
  intro b e t y
  have hrun : succeedsWith (Translate.lowerExpr {} e) t (fun n t' =>
      match n with
      | .literal l => decide (t'.program.Solves y ∧ ¬ l.Holds y)
      | _ => false) = true := by
    decide +kernel
  obtain ⟨n, t', h, htest⟩ := exists_of_succeedsWith hrun
  cases n with
  | literal l =>
    obtain ⟨hy, hl⟩ := of_decide_eq_true htest
    exact ⟨l, t', h, hy, by decide +kernel, hl⟩
  | _ => cases htest

end Draft

end Linearization
