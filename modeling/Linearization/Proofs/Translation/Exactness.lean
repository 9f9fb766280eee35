import Linearization.Proofs.Translation.Constraint
import Linearization.Proofs.Translation.Safety

/-!
# Exactness in every reachable draft

What a successful step of a translation has done, in terms of solutions alone. Lowering an
expression excludes no solution and gives its value in every solution (`lowerExpr_exact`); imposing
an expression leaves exactly the solutions in which it holds or a guard is false
(`imposeExpr_exact`). The drafts are those that a translation can reach, also through steps that
failed.
-/

namespace Linearization

variable {config : Config} {t t' : Draft} {e : Expr} {n : Lowered} {guards : List Literal}
  {u : Unit}

namespace Translate

theorem exact_lowerExpr (config : Config) (he : e.Flat) : ExactFor (lowerExpr config) e :=
  fun t _ _ hwf hcovers h => exact_lowerWithin config.maxDecompositionDepth
    (config.maxDecompositionDepth - t.depth) he hwf hcovers h

theorem posts_imposeExpr (config : Config) (he : e.Postable) : PostsFor (imposeExpr config) e :=
  fun t _ _ _ hwf hcovers hfresh hg h => posts_imposeWithin config.maxDecompositionDepth
    (config.maxDecompositionDepth - t.depth) he hwf hcovers hfresh hg h

end Translate

namespace Draft

open Translate

/-- Every earlier solution extends to the new columns, and in every solution the lowered value is
the value of the expression. -/
theorem Reachable.lowerExpr_exact (ht : t.Reachable config) (he : e.Flat)
    (hvars : ∀ v ∈ e.vars, t.layout.Has v) (h : lowerExpr config e t = .ok n t') :
    (∀ x, t.program.Solves x →
        ∃ y, AgreeBelow t.program.columns.size x y ∧ t'.program.Solves y) ∧
      ∀ y, t'.program.Solves y → e.Denotes (t.layout.valuation y) y n := by
  obtain ⟨-, hdefines⟩ :=
    exact_lowerExpr config he ht.wellFormed (Layout.covers_of_vars hvars) h
  exact ⟨fun x hx => hdefines.defines.complete x hx trivial, fun y hy => hdefines.sound hy⟩

/-- A variable that may be negative, times half of it. -/
theorem lowerExpr_exact_of_quotient :
    let v : Var := ⟨⟨.declared 0, .int (-1) 3⟩, "v"⟩
    let e : Expr := .op .mul [.var v, .op .div [.var v, .const 2]]
    let t := stateAfter (register v) (start 4096)
    ∃ n t', lowerExpr {} e t = .ok n t' ∧
      (∀ x, t.program.Solves x →
        ∃ y, AgreeBelow t.program.columns.size x y ∧ t'.program.Solves y) ∧
      ∀ y, t'.program.Solves y → e.Denotes (t.layout.valuation y) y n := by
  intro v e t
  have ht : t.Reachable {} := .register .start fun column hc => by cases hc
  have hhalf : (Expr.op .div [.var v, .const 2]).Flat :=
    .op (by simp [Expr.Flat.const, Expr.Flat.var])
  have he : e.Flat := .op (by simp [hhalf, Expr.Flat.var])
  have hvars : ∀ w ∈ e.vars, t.layout.Has w := by decide
  have hrun : succeedsWith (lowerExpr {} e) t (fun _ _ => true) = true := by decide +kernel
  obtain ⟨n, t', h, -⟩ := exists_of_succeedsWith hrun
  exact ⟨n, t', h, ht.lowerExpr_exact he hvars h⟩

/-- An earlier solution extends to the new columns exactly if a guard is false in it or the
expression holds. -/
theorem Reachable.imposeExpr_exact (ht : t.Reachable config) (he : e.Postable)
    (hvars : ∀ v ∈ e.vars, t.layout.Has v) (hfresh : t.layout.Fresh e.bound)
    (hg : ∀ g ∈ guards, t.program.IsTruth g) (h : imposeExpr config e guards t = .ok u t')
    {x : Assignment} (hx : t.program.Solves x) :
    (∃ y, AgreeBelow t.program.columns.size x y ∧ t'.program.Solves y) ↔
      (∃ g ∈ guards, ¬ g.Holds x) ∨ e.holds (t.layout.valuation x) = true := by
  have hposts :=
    posts_imposeExpr config he ht.wellFormed (Layout.covers_of_vars hvars) hfresh hg h
  have hlocal := local_guarded ht.wellFormed hg fun σ => e.holds σ = true
  rw [hposts.imposes.exists_iff hlocal hx, Guarded, Literal.AllHold, imp_iff_not_or, not_forall₂]
  simp only [exists_prop]

/-- Two nodes of which one leads to the node introduced for it, under a guard that is true. -/
theorem imposeExpr_exact_of_tour :
    let b : Var := ⟨⟨.declared 0, .bool⟩, "b"⟩
    let v : Var := ⟨⟨.declared 1, .int 0 1⟩, "v"⟩
    let w : Var := ⟨⟨.declared 2, .int 0 1⟩, "w"⟩
    let e : Expr := .global (.defined "tour" [.var v]
      [.compare .ne (.var w) (.var v), .global (.plain .circuit [.var w, .var v])] [w])
    let t := stateAfter (register v) (stateAfter (register b) (start 4096))
    let x : Assignment := fun i => if i = 0 then 1 else 0
    ∃ u t', imposeExpr {} e [.ofColumn 0] t = .ok u t' ∧
      ((∃ y, AgreeBelow t.program.columns.size x y ∧ t'.program.Solves y) ↔
        (∃ g ∈ [Literal.ofColumn 0], ¬ g.Holds x) ∨ e.holds (t.layout.valuation x) = true) := by
  intro b v w e t x
  have ht : t.Reachable {} :=
    .register (.register .start fun column hc => by cases hc) fun column hc => by cases hc
  have he : e.Postable := .defined (by
    simp [Expr.Postable.circuit, Expr.Postable.of_flat, Expr.Flat.compare, Expr.Flat.var])
  have hvars : ∀ u ∈ e.vars, t.layout.Has u := by decide
  have hdeclared : ∀ u ∈ e.bound, u.IsDeclared := List.forall_mem_singleton.2 ⟨2, rfl⟩
  have hfresh : t.layout.Fresh e.bound := ⟨hdeclared, by decide, by decide, by decide⟩
  have hg : ∀ g ∈ [Literal.ofColumn 0], t.program.IsTruth g := by
    simp only [List.forall_mem_singleton]
    exact ⟨_, rfl, by decide, by decide⟩
  have hx : t.program.Solves x := by decide
  have hrun : succeedsWith (imposeExpr {} e [.ofColumn 0]) t (fun _ _ => true) = true := by
    decide +kernel
  obtain ⟨u, t', h, -⟩ := exists_of_succeedsWith hrun
  exact ⟨u, t', h, ht.imposeExpr_exact he hvars hfresh hg h hx⟩

end Draft

end Linearization
