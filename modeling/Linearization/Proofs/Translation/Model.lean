import Linearization.Proofs.Translation.Exactness

/-!
# Exactness of the translation of a model

If the translation of a model succeeds, the assignments of its variables that satisfy all
constraints are those that some solution of the program carries in the columns of the variables, and
in every such solution the objective has its value (`Model.translate_exact`). The model may
introduce variables in decompositions, but only where these are imposed as constraints, and the
introduced variables must not occur elsewhere (`Model.WellPosed`).

1. Registering the variables excludes no values of their domains (`Draft.exists_values`).
2. The constraints are imposed one after the other (`Translate.posts_forM`).
3. Lowering the objective excludes nothing (`Translate.defines_objective`).
-/

namespace Linearization

open Linearization.Valuation

/-- The columns of the variables have the values of the variables. -/
def Layout.Carries (r : Layout) (vs : List Var) (σ : Valuation) (x : Assignment) : Prop :=
  ∀ v ∈ vs, ∃ image, r.get? v = some image ∧ x image.column = σ v.toVarKey

/-- Variables are introduced only by decompositions that are imposed as constraints, each by one
decomposition, outside of which it does not occur, and with values to choose from. -/
structure Model.WellPosed (m : Model) : Prop where
  postable : ∀ c ∈ m.constraints, c.Postable
  flat : ∀ o, m.objective = some o → o.expr.Flat
  declared : ∀ v ∈ m.vars ++ boundInAll m.constraints, v.IsDeclared
  apart : ∀ v ∈ boundInAll m.constraints, v.toVarKey ∉ keysOf m.vars
  nonempty : ∀ v ∈ boundInAll m.constraints, v.domain.lower ≤ v.domain.upper
  nodup : (keysOf (boundInAll m.constraints)).Nodup

variable {config : Config} {m : Model} {o : Objective} {t t' : Draft} {u : Unit} {v : Var}
  {vs : List Var} {σ : Valuation} {x : Assignment} {r s : Layout} {tr : Translation}

namespace Layout

theorem carries_iff :
    r.Carries vs σ x ↔ ∀ v ∈ vs, r.Has v ∧ r.valuation x v.toVarKey = σ v.toVarKey := by
  refine forall₂_congr fun v _ => ?_
  constructor
  · rintro ⟨image, hv, heq⟩
    exact ⟨Option.isSome_iff_exists.2 ⟨image, hv⟩, (valuation_of_get? hv).trans heq⟩
  · rintro ⟨hv, heq⟩
    obtain ⟨image, hv⟩ := Option.isSome_iff_exists.1 hv
    exact ⟨image, hv, (valuation_of_get? hv).symm.trans heq⟩

theorem Grows.carries (h : r.Grows s) (hx : r.Carries vs σ x) : s.Carries vs σ x := fun v hv => by
  obtain ⟨image, hget, heq⟩ := hx v hv
  exact ⟨image, h v image hget, heq⟩

end Layout

namespace Translate

theorem defines_objective (hwf : t.WellFormed) (hflat : o.expr.Flat) (ho : t.layout.Covers o.expr)
    (h : installObjective config o t = .ok u t') :
    ∃ form s, t.Defines s (fun σ x => o.expr.value? σ = some (form.eval x)) ∧
      t' = { s with program := { s.program with objective := some (o.direction, form) } } := by
  obtain ⟨n, t₁, h₁, h₂⟩ := bind_eq_ok.1 h
  obtain ⟨hover, hd₁⟩ := exact_lowerExpr config hflat hwf ho h₁
  obtain ⟨q, hq, rfl⟩ := build_eq_ok.1 h₂
  obtain ⟨form, q', hform, hset⟩ := bind_eq_ok.1 hq
  have hd₂ := defines_of_affineOf (e := o.expr) (hd₁.wellFormed hwf).program hover
    (build_eq_ok.2 ⟨q', hform, rfl⟩)
  refine ⟨form, _, (hd₁.trans hd₂.2).weaken fun x _ hx => hx.1.value?_eq.trans hx.2, ?_⟩
  rw [← modify_eq_ok.1 hset]

theorem covers_registered {limit : Nat} {e : Expr} (he : e ∈ m.roots) :
    (registered limit m).layout.Covers e :=
  Layout.covers_of_varsOf (fun _ hv => has_registered.2 (List.mem_map_of_mem hv)) he

theorem wellFormed_of_declared (limit : Nat) (h : ∀ v ∈ m.vars, v.IsDeclared) :
    (registered limit m).WellFormed :=
  (Draft.WellFormed.start limit).withVars <| Draft.inOrder_of_inScope fun v hv =>
    (h v hv).inScope _

theorem wellFormed_registered (limit : Nat) (hm : m.WellPosed) :
    (registered limit m).WellFormed :=
  wellFormed_of_declared limit fun v hv => hm.declared v (List.mem_append_left _ hv)

theorem fresh_registered {limit : Nat} (hm : m.WellPosed) :
    (registered limit m).layout.Fresh (boundInAll m.constraints) where
  declared v hv := hm.declared v (List.mem_append_right _ hv)
  new v hv hhas := hm.apart v hv (has_registered.1 hhas)
  nonempty := hm.nonempty
  nodup := hm.nodup

/-- When the variables are registered they can have any values of their domains. -/
theorem exists_values_registered (limit : Nat) (h : ∀ v ∈ m.vars, v.IsDeclared)
    (hσ : σ.InDomain m.vars) :
    ∃ x, (registered limit m).program.Solves x ∧ ∀ v, (registered limit m).layout.Has v →
      (registered limit m).layout.valuation x v.toVarKey = σ v.toVarKey := by
  have horder := Draft.inOrder_of_inScope fun v hv =>
    (h v hv).inScope (Draft.start limit).program.columns.size
  obtain ⟨x, -, hx, hvalues⟩ := Draft.exists_values (.start limit) horder
    (Ilp.solves_empty limit fun _ => 0) (fun _ hw => by cases hw) fun v hv _ => hσ v hv
  exact ⟨x, hx, hvalues⟩

/-- Every assignment within the domains is carried when the variables are registered. -/
theorem exists_carries {limit : Nat} (hm : m.WellPosed) (hσ : σ.InDomain m.vars) :
    ∃ x, (registered limit m).program.Solves x ∧
      (registered limit m).layout.Carries m.vars σ x := by
  obtain ⟨x, hx, hvalues⟩ := exists_values_registered limit
    (fun v hv => hm.declared v (List.mem_append_left _ hv)) hσ
  refine ⟨x, hx, Layout.carries_iff.2 fun v hv => ?_⟩
  have hhas : (registered limit m).layout.Has v := has_registered.2 (List.mem_map_of_mem hv)
  exact ⟨hhas, hvalues v hhas⟩

/-- The expressions of the model read the values that the assignment of the columns carries. -/
theorem agree_of_carries {e : Expr} (hx : r.Carries m.vars σ x) (he : e ∈ m.roots) :
    Agree σ (r.valuation x) [] e := by
  have hcovers : (registered 0 m).layout.Covers e := covers_registered he
  refine hcovers.agree fun v hv => ?_
  obtain ⟨w, hw, heq⟩ := List.mem_map.1 (has_registered.1 hv)
  rw [← heq]
  exact (Layout.carries_iff.1 hx w hw).2.symm

theorem holdsAll_iff_of_carries {limit : Nat} (hr : (registered limit m).layout.Grows r)
    (hx : r.Carries m.vars σ x) :
    holdsAll ((registered limit m).layout.valuation x) m.constraints = true ↔
      ∀ c ∈ m.constraints, c.holds σ = true := by
  rw [holdsAll_iff]
  refine forall₂_congr fun c hc => ?_
  have hroot : c ∈ m.roots := List.mem_append_left _ hc
  rw [truthHasFrame c (agree_of_carries hx hroot),
    hr.holds (covers_registered hroot)]

/-- After the variables the constraints are imposed; the objective adds what its value needs. -/
theorem model_eq_ok {limit : Nat} (hm : m.WellPosed)
    (h : model config m (.start limit) = .ok u t') :
    ∃ s, (registered limit m).Posts s (boundInAll m.constraints)
        (Guarded [] fun σ => holdsAll σ m.constraints = true) ∧
      t'.layout = s.layout ∧ (∀ x, t'.program.Solves x ↔ s.program.Solves x) ∧
      (m.objective = none → t'.program.objective = none) ∧
      ∀ o, m.objective = some o → ∃ form, t'.program.objective = some (o.direction, form) ∧
        ∀ x, s.program.Solves x → o.expr.value? (s.layout.valuation x) = some (form.eval x) := by
  obtain ⟨_, _, h₀, h⟩ := bind_eq_ok.1 h
  rw [registerAll_run] at h₀
  cases h₀
  obtain ⟨_, t₁, h₁, h₂⟩ := bind_eq_ok.1 h
  have hroots : ∀ c ∈ m.constraints, c ∈ m.roots := fun c hc => List.mem_append_left _ hc
  have hposts := posts_forM (fun c hc => posts_imposeExpr config (hm.postable c hc))
    (wellFormed_registered limit hm) (fun c hc => covers_registered (hroots c hc))
    (fresh_registered hm) (List.forall_mem_nil _) h₁
  cases ho : m.objective with
  | none =>
    rw [ho] at h₂
    obtain ⟨-, rfl⟩ := pure_eq_ok.1 h₂
    have hgrows := (Draft.grows_withVars (.start limit) m.vars).trans hposts.grows
    exact ⟨t₁, hposts, rfl, fun x => Iff.rfl, fun _ => hgrows.program.objective, nofun⟩
  | some o =>
    rw [ho] at h₂
    have hroot : o.expr ∈ m.roots := List.mem_append_right _ (by simp [ho])
    obtain ⟨form, s, hdefines, rfl⟩ := defines_objective hposts.wellFormed (hm.flat o ho)
      (hposts.layout.covers (covers_registered hroot)) h₂
    refine ⟨s, hposts.before_defines hdefines, rfl, fun x => Iff.rfl, nofun, fun o' ho' => ?_⟩
    cases ho'
    rw [hdefines.layout]
    exact ⟨form, rfl, fun x hx => hdefines.sound hx⟩

end Translate

/-- An assignment of the variables satisfies all constraints exactly if a solution of the program
carries it, and in every such solution the objective form has the value of the objective. -/
theorem Model.translate_exact (hm : m.WellPosed) (h : m.translate config = .ok tr) :
    (∀ σ : Valuation, σ.InDomain m.vars →
      ((∀ c ∈ m.constraints, c.holds σ = true) ↔
        ∃ x, tr.layout.Carries m.vars σ x ∧ tr.program.Solves x)) ∧
    (m.objective = none → tr.program.objective = none) ∧
    ∀ o, m.objective = some o → ∃ form, tr.program.objective = some (o.direction, form) ∧
      ∀ σ x, tr.layout.Carries m.vars σ x → tr.program.Solves x →
        o.expr.value? σ = some (form.eval x) := by
  unfold Model.translate at h
  cases hrun : Translate.model config m (.start config.maxDomainEnumeration) with
  | error e t => rw [hrun] at h; cases h
  | ok u t' =>
    rw [hrun] at h
    cases h
    obtain ⟨s, hposts, hlayout, hsolves, hnone, hsome⟩ := Translate.model_eq_ok hm hrun
    have hwf := Translate.wellFormed_registered config.maxDomainEnumeration hm
    simp only [hlayout, hsolves]
    refine ⟨fun σ hσ => ⟨fun hall => ?_, ?_⟩, hnone, fun o ho => ?_⟩
    · obtain ⟨x, hx, hcarries⟩ := Translate.exists_carries hm hσ
      have hholds := (Translate.holdsAll_iff_of_carries (.refl _) hcarries).2 hall
      obtain ⟨y, hxy, hy⟩ := hposts.imposes.complete x hx fun _ => hholds
      rw [Layout.carries_iff, hwf.valuation_congr hxy, ← Layout.carries_iff] at hcarries
      exact ⟨y, hposts.layout.carries hcarries, hy⟩
    · rintro ⟨x, hcarries, hx⟩
      refine (Translate.holdsAll_iff_of_carries hposts.layout hcarries).1 ?_
      exact hposts.imposes.sound x hx (List.forall_mem_nil _)
    · obtain ⟨form, hform, hvalue⟩ := hsome o ho
      refine ⟨form, hform, fun σ x hcarries hx => ?_⟩
      have hroot : o.expr ∈ m.roots := List.mem_append_right _ (by simp [ho])
      rw [hasFrame o.expr (Translate.agree_of_carries hcarries hroot), hvalue x hx]

/-- Two nodes of which one leads to the node introduced for it, the larger the better. -/
theorem Model.translate_exact_of_tour :
    let v : Var := ⟨⟨.declared 0, .int 0 1⟩, "v"⟩
    let w : Var := ⟨⟨.declared 1, .int 0 1⟩, "w"⟩
    let tour : Expr := .global (.defined "tour" [.var v]
      [.compare .ne (.var w) (.var v), .global (.plain .circuit [.var w, .var v])] [w])
    let o : Objective := ⟨.maximize, .op .div [.op .mul [.var v, .const 7], .const 2]⟩
    let m : Model := { constraints := [tour], objective := some o }
    ∃ tr, m.translate {} = .ok tr ∧
      (∀ σ : Valuation, σ.InDomain m.vars →
        ((∀ c ∈ m.constraints, c.holds σ = true) ↔
          ∃ x, tr.layout.Carries m.vars σ x ∧ tr.program.Solves x)) ∧
      (m.objective = none → tr.program.objective = none) ∧
      ∀ o, m.objective = some o → ∃ form, tr.program.objective = some (o.direction, form) ∧
        ∀ σ x, tr.layout.Carries m.vars σ x → tr.program.Solves x →
          o.expr.value? σ = some (form.eval x) := by
  intro v w tour o m
  have htour : tour.Postable := .defined (by
    simp [Expr.Postable.circuit, Expr.Postable.of_flat, Expr.Flat.compare, Expr.Flat.var])
  have hproduct : (Expr.op .mul [.var v, .const 7]).Flat :=
    .op (by simp [Expr.Flat.const, Expr.Flat.var])
  have hm : m.WellPosed := {
    postable := List.forall_mem_singleton.2 htour
    flat := fun o ho => by
      cases ho
      exact .op (by simp [hproduct, Expr.Flat.const])
    declared := List.forall_mem_cons.2 ⟨⟨0, rfl⟩, List.forall_mem_singleton.2 ⟨1, rfl⟩⟩
    apart := by decide
    nonempty := by decide
    nodup := by decide }
  have hrun : (m.translate {}).isOk = true := by decide +kernel
  cases h : m.translate {} with
  | ok tr => exact ⟨tr, rfl, Model.translate_exact hm h⟩
  | error e =>
    rw [h] at hrun
    cases hrun

end Linearization
