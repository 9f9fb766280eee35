import Linearization.Proofs.Translation.Complement
import Linearization.Proofs.Translation.Truth

/-!
# Posting and forcing

A constraint can be posted as it is, or be forced as the only argument of a disjunction, which makes
a truth value of it first. Wherever both are possible, forcing permits everything that posting
permits, and nothing else unless a cycle stands in the arguments of a posted all-different or cycle
(`Draft.Reachable.permits_forced`).
-/

namespace Linearization

namespace Translate

variable {t t' : Draft} {e : Expr} {es : List Expr} {u : Unit} {limit : Nat}
  {deeper : Option Deeper} {guards : List Literal} {config : Config} {P : VarKey → Prop}
  {σ : Valuation} {x : Assignment}

theorem offers_lowerExpr (config : Config) (e : Expr) : OffersFor (lowerExpr config) e :=
  fun t _ _ _ hwf hP he h => offers_lowerWithin config.maxDecompositionDepth
    (config.maxDecompositionDepth - t.depth) e hwf hP he h

theorem enforces_imposeExpr (hwf : t.WellFormed) (hP : t.Scopes P) (he : e.Among P)
    (hg : ∀ l ∈ guards, t.program.IsTruth l) (h : imposeExpr config e guards t = .ok u t') :
    t.Enforces t' P guards fun σ => e.Meets σ := by
  rw [imposeExpr_eq] at h
  exact enforces_impose (enforcesLevel_below _ _) e hwf hP he hg h

theorem exists_canAllBe_of_imposeOr (hlevel : ∀ level, deeper = some level → OffersLevel level)
    (hwf : t.WellFormed) (hP : t.Scopes P) (hes : ∀ e ∈ es, e.Among P)
    (h : impose limit deeper (.op .or es) guards t = .ok u t') (hx : t.program.Solves x)
    (hσ : t.Carries P σ x) (hin : t'.Within P σ) : ∃ bs, CanAllBe σ es bs := by
  obtain ⟨ls, t₁, h₁, h⟩ := bind_eq_ok.1 h
  obtain ⟨-, ho⟩ := offers_literals (fun e _ => offers_lower hlevel e) hwf hP hes h₁
  obtain ⟨q, -, rfl⟩ := build_eq_ok.1 h
  exact ho.serial σ x hx hσ hin

theorem exists_canBe_of_forced (hwf : t.WellFormed) (hP : t.Scopes P) (he : e.Among P)
    (h : imposeExpr config (.op .or [e]) guards t = .ok u t') (hx : t.program.Solves x)
    (hσ : t.Carries P σ x) (hin : t'.Within P σ) : ∃ b, CanBe σ e b := by
  rw [imposeExpr_eq] at h
  obtain ⟨_, hall⟩ := exists_canAllBe_of_imposeOr
    (fun level h => (enforcesLevel_below _ _ level h).lower) hwf hP (List.forall_mem_singleton.2 he)
    h hx hσ hin
  obtain ⟨b, _, -, hb, -⟩ := canAllBe_cons_iff.1 hall
  exact ⟨b, hb⟩

end Translate

namespace Draft

open Translate

variable {t t' posted forced : Draft} {P : VarKey → Prop} {M : Valuation → Prop}
  {σ τ : Valuation} {e : Expr} {config : Config} {u u' : Unit}

/-- The registered variables have the given values, and the other ones values of their domains. -/
structure Completes (t : Draft) (P : VarKey → Prop) (σ τ : Valuation) : Prop where
  same : ∀ v : Var, t.layout.Has v → τ v.toVarKey = σ v.toVarKey
  within : ∀ v : Var, P v.toVarKey → ¬ t.layout.Has v → v.domain.Admits (τ v.toVarKey)

theorem Completes.carries (h : t.Completes P σ τ) {x : Assignment}
    (hσ : ∀ v, t.layout.Has v → t.layout.valuation x v.toVarKey = σ v.toVarKey) :
    t.Carries P τ x := by
  intro v hv _
  rw [hσ v hv, h.same v hv]

theorem Completes.within_of_solves (h : t.Completes P σ τ) (hwf : t.WellFormed) {x : Assignment}
    (hx : t.program.Solves x)
    (hσ : ∀ v, t.layout.Has v → t.layout.valuation x v.toVarKey = σ v.toVarKey) :
    t'.Within P τ := by
  intro v _ hP
  by_cases hv : t.layout.Has v
  · rw [h.same v hv, ← hσ v hv]
    exact hwf.admits hx hv
  · exact h.within v hP hv

theorem Completes.congr (h : t.Completes P σ τ) {σ' : Valuation}
    (hσ : ∀ v : Var, t.layout.Has v → σ v.toVarKey = σ' v.toVarKey) : t.Completes P σ' τ where
  same v hv := (h.same v hv).trans (hσ v hv)
  within := h.within

theorem exists_completes
    (hdomain : ∀ v : Var, P v.toVarKey → ¬ t.layout.Has v → v.domain.lower ≤ v.domain.upper) :
    ∃ τ, t.Completes P σ τ := by
  let τ : Valuation := fun k => if t.layout.Has ⟨k, ""⟩ then σ k else k.domain.lower
  have hother : ∀ v : Var, ¬ t.layout.Has v → τ v.toVarKey = v.domain.lower := fun v hv => if_neg hv
  refine ⟨τ, fun v hv => if_pos hv, fun v hP hv => ?_⟩
  rw [hother v hv]
  exact ⟨Int.le_refl _, hdomain v hP hv⟩

/-- The values of a later solution, completed by values for the variables that are not registered
then either. -/
theorem exists_completes_of_solves (hgrows : t.Grows t') (hwf : t'.WellFormed)
    (hdomain : ∀ v : Var, P v.toVarKey → ¬ t.layout.Has v → v.domain.lower ≤ v.domain.upper)
    {y : Assignment} (hy : t'.program.Solves y) :
    ∃ τ, t.Completes P (t.layout.valuation y) τ ∧ t'.Carries P τ y := by
  obtain ⟨τ, hτ⟩ := exists_completes (t := t') (P := P) (σ := t'.layout.valuation y)
    fun v hP hv => hdomain v hP fun hbefore => hv (hgrows.layout.has hbefore)
  refine ⟨τ, ⟨fun v hv => ?_, fun v hP hv => ?_⟩, fun v hv _ => (hτ.same v hv).symm⟩
  · rw [hτ.same v (hgrows.layout.has hv), hgrows.layout.valuation hv]
  · by_cases hv' : t'.layout.Has v
    · rw [hτ.same v hv']
      exact hwf.admits hy hv'
    · exact hτ.within v hP hv'

/-- The solution extends to what a later draft has added. -/
def ExtendsTo (t t' : Draft) (x : Assignment) : Prop :=
  ∃ y, AgreeBelow t.program.columns.size x y ∧ t'.program.Solves y

/-- A solution extends if its values can be completed such that the condition is satisfied, or if
some guard is false. -/
theorem Enforces.extendsTo_iff {guards : List Literal} (h : t.Enforces t' P guards M)
    (hwf : t.WellFormed) (hg : ∀ l ∈ guards, t.program.IsTruth l)
    (hdomain : ∀ v : Var, P v.toVarKey → ¬ t.layout.Has v → v.domain.lower ≤ v.domain.upper)
    {x : Assignment} (hx : t.program.Solves x) :
    t.ExtendsTo t' x ↔
      (Literal.AllHold guards x → ∃ τ, t.Completes P (t.layout.valuation x) τ ∧ M τ) := by
  constructor
  · rintro ⟨y, hxy, hy⟩ hguards
    obtain ⟨τ, hτ, hcarries⟩ := exists_completes_of_solves h.grows h.wellFormed hdomain hy
    rw [hwf.valuation_congr hxy]
    exact ⟨τ, hτ, h.sound τ y hy hcarries ((local_guards hg _ _ hxy).1 hguards)⟩
  · intro hcomplete
    have hchoice : ∃ τ, t.Completes P (t.layout.valuation x) τ ∧
        (Literal.AllHold guards x → M τ) := by
      by_cases hguards : Literal.AllHold guards x
      · obtain ⟨τ, hτ, hM⟩ := hcomplete hguards
        exact ⟨τ, hτ, fun _ => hM⟩
      · obtain ⟨τ, hτ⟩ := exists_completes hdomain
        exact ⟨τ, hτ, fun hall => absurd hall hguards⟩
    obtain ⟨τ, hτ, hM⟩ := hchoice
    obtain ⟨y, hxy, hy, -⟩ := h.complete τ x hx (hτ.carries fun _ _ => rfl)
      (hτ.within_of_solves hwf hx fun _ _ => rfl) hM
    exact ⟨y, hxy, hy⟩

/-- What is permitted is what was permitted before and can be completed such that the condition is
satisfied. -/
theorem Enforces.permits_iff (h : t.Enforces t' P [] M) (hwf : t.WellFormed)
    (hdomain : ∀ v : Var, P v.toVarKey → ¬ t.layout.Has v → v.domain.lower ≤ v.domain.upper) :
    t'.Permits t.layout σ ↔ t.Permits t.layout σ ∧ ∃ τ, t.Completes P σ τ ∧ M τ := by
  have hextends := fun {x : Assignment} (hx : t.program.Solves x) =>
    h.extendsTo_iff hwf (List.forall_mem_nil _) hdomain hx
  constructor
  · rintro ⟨y, hy, hσ⟩
    have hbefore := h.grows.program.solves hy
    obtain ⟨τ, hτ, hM⟩ := (hextends hbefore).1 ⟨y, .refl _ y, hy⟩ (List.forall_mem_nil _)
    exact ⟨⟨y, hbefore, hσ⟩, τ, hτ.congr hσ, hM⟩
  · rintro ⟨⟨x, hx, hσ⟩, τ, hτ, hM⟩
    have hcompletes := hτ.congr fun v hv => (hσ v hv).symm
    obtain ⟨y, hxy, hy⟩ := (hextends hx).2 fun _ => ⟨τ, hcompletes, hM⟩
    refine ⟨y, hy, fun v hv => ?_⟩
    rw [← hwf.valuation_congr hxy]
    exact hσ v hv

/-- The scope of an expression: the registered variables, and those that decompositions in it
introduce. -/
def scopeOf (t : Draft) (e : Expr) : VarKey → Prop :=
  fun k => t.layout.Has ⟨k, ""⟩ ∨ e.Introduces k

theorem among_scopeOf (hvars : ∀ v ∈ e.vars, t.layout.Has v) : e.Among (t.scopeOf e) := by
  have haccounts : e.Accounts (t.scopeOf e) [] := {
    occurrences := fun v hv => .inl (Layout.covers_of_vars hvars v hv)
    hidden := List.forall_mem_nil _
    introduced := fun k hk => .inr hk }
  exact haccounts.allVars

/-- Forcing a constraint as the only argument of a disjunction permits whatever posting it permits.
It permits nothing else if no cycle stands in the arguments of a posted all-different or cycle. -/
theorem Reachable.permits_forced (ht : t.Reachable config) (he : e.Constrains fun _ => True)
    (hvars : ∀ v ∈ e.vars, t.layout.Has v)
    (hnew : ∀ v : Var, e.Introduces v.toVarKey →
      v.InScope t.program.columns.size ∧ v.domain.lower ≤ v.domain.upper)
    (h : imposeExpr config e [] t = .ok u posted)
    (hforced : imposeExpr config (.op .or [e]) [] t = .ok u' forced) :
    (posted.Permits t.layout σ → forced.Permits t.layout σ) ∧
      ((e.Constrains fun args => ∀ a ∈ args, a.Steady) →
        (forced.Permits t.layout σ → posted.Permits t.layout σ)) := by
  have hwf := ht.wellFormed
  have hP : t.Scopes (t.scopeOf e) := fun v hv => hv.elim (hwf.inScope v) fun hv => (hnew v hv).1
  have hdomain : ∀ v : Var, t.scopeOf e v.toVarKey → ¬ t.layout.Has v →
      v.domain.lower ≤ v.domain.upper := fun v hv hnot => (hnew v (hv.resolve_left hnot)).2
  have hamong := among_scopeOf hvars
  have hor : (Expr.op .or [e]).Among (t.scopeOf e) := .op (List.forall_mem_singleton.2 hamong)
  have hposts := enforces_imposeExpr hwf hP hamong (List.forall_mem_nil _) h
  have hforces := enforces_imposeExpr hwf hP hor (List.forall_mem_nil _) hforced
  rw [hposts.permits_iff hwf hdomain, hforces.permits_iff hwf hdomain]
  constructor
  · rintro ⟨⟨x, hx, hσ⟩, τ, hτ, hmeets⟩
    have hsome := exists_canBe_of_forced hwf hP hamong hforced hx (hτ.carries hσ)
      (hτ.within_of_solves hwf hx hσ)
    exact ⟨⟨x, hx, hσ⟩, τ, hτ, meets_or_singleton.2 (canBe_of_meets he hsome hmeets)⟩
  · rintro hsteady ⟨hbefore, τ, hτ, hmeets⟩
    exact ⟨hbefore, τ, hτ, meets_of_canBe hsteady (meets_or_singleton.1 hmeets)⟩

/-- A cycle through two variables, under a condition. -/
theorem permits_forced_of_implication :
    let b : Var := ⟨⟨.declared 0, .bool⟩, "b"⟩
    let v : Var := ⟨⟨.declared 1, .int 0 1⟩, "v"⟩
    let w : Var := ⟨⟨.declared 2, .int 0 1⟩, "w"⟩
    let e : Expr := .op .implies [.var b, .global (.plain .circuit [.var v, .var w])]
    let t := stateAfter (register w) (stateAfter (register v) (stateAfter (register b) (start 4096)))
    ∃ posted forced u u', imposeExpr {} e [] t = .ok u posted ∧
      imposeExpr {} (.op .or [e]) [] t = .ok u' forced ∧
      ∀ σ, forced.Permits t.layout σ ↔ posted.Permits t.layout σ := by
  intro b v w e t
  have ht : t.Reachable {} :=
    .register (.register (.register .start fun column hc => by cases hc)
      fun column hc => by cases hc) fun column hc => by cases hc
  have hsteady : e.Constrains fun args => ∀ a ∈ args, a.Steady :=
    .implies (.circuit (by simp [Expr.Steady.var]))
  have he : e.Constrains fun _ => True := .implies (.circuit trivial)
  have hvars : ∀ u ∈ e.vars, t.layout.Has u := by decide
  have hparts : e.AllParts fun d => ∀ g, d = .global g → g.newVars = [] := by
    have hvar : ∀ u : Var, (Expr.var u).AllParts fun d => ∀ g, d = .global g → g.newVars = [] :=
      fun u => .of_children nofun (List.forall_mem_nil _) nofun
    refine .of_children nofun (List.forall_mem_cons.2 ⟨hvar b, List.forall_mem_singleton.2 ?_⟩) nofun
    refine .of_children ?_ (List.forall_mem_cons.2 ⟨hvar v, List.forall_mem_singleton.2 (hvar w)⟩) ?_
    · intro g hg
      cases hg
      rfl
    · intro g hg
      cases hg
      exact List.forall_mem_nil _
  have hnew : ∀ u : Var, e.Introduces u.toVarKey →
      u.InScope t.program.columns.size ∧ u.domain.lower ≤ u.domain.upper := by
    rintro u ⟨g, hg, hu⟩
    rw [hparts _ hg g rfl] at hu
    cases hu
  have hrun : succeedsWith (imposeExpr {} e []) t (fun _ _ => true) = true := by decide +kernel
  have hrun' : succeedsWith (imposeExpr {} (.op .or [e]) []) t (fun _ _ => true) = true := by
    decide +kernel
  obtain ⟨u, posted, h, -⟩ := exists_of_succeedsWith hrun
  obtain ⟨u', forced, hforced, -⟩ := exists_of_succeedsWith hrun'
  refine ⟨posted, forced, u, u', h, hforced, fun σ => ?_⟩
  exact ⟨(ht.permits_forced he hvars hnew h hforced).2 hsteady,
    (ht.permits_forced he hvars hnew h hforced).1⟩

/-- A cycle has a truth value, so it does not differ from both truth values. -/
theorem not_meets_distinct_of_truth {successors : List Expr} {σ : Valuation} :
    ¬ (Expr.global (.plain .allDifferent
      [.global (.plain .circuit successors), .const 0, .const 1])).Meets σ := by
  intro hmeets
  obtain ⟨vs, hargs, hnodup⟩ := (Expr.meets_distinct_iff (by simp)).1 hmeets
  obtain ⟨k, rest, hk, hrest, rfl⟩ := Expr.yieldsAll_cons.1 hargs
  have hbits : rest = [0, 1] := hrest.unique (by simp [Expr.Steady.const])
    (.cons (.const 0) (.cons (.const 1) .nil))
  obtain ⟨order, -, hall⟩ := Expr.yields_order_iff.1 hk
  obtain ⟨truth, htruth⟩ := Expr.yields_all hall
  cases htruth
  subst hbits
  cases truth <;> simp [ofTruth] at hnodup

/-- All-different over a truth value and both truth values excludes everything, but its own truth
value can be true: the cycle is translated for each pair anew, and each time with the order that
makes it differ. -/
theorem forced_permits_more :
    let b : Var := ⟨⟨.declared 0, .bool⟩, "b"⟩
    let cycle : Expr := .global (.plain .circuit [.const 1, .const 0])
    let e : Expr := .global (.plain .allDifferent [cycle, .const 0, .const 1])
    let t := stateAfter (register b) (start 4096)
    let y : Assignment := fun i => [1, 1, 0, 1, 1, 0, 1, 1, 0, 0, 1, 1, 0, 1, 1, 0, 0, 0, 0, 1, 0, 1,
      1, 0, 0, 1, 0, 1, 1].getD i 0
    let σ := t.layout.valuation y
    ∃ posted forced u u', imposeExpr {} e [] t = .ok u posted ∧
      imposeExpr {} (.op .or [e]) [] t = .ok u' forced ∧
      forced.Permits t.layout σ ∧ ¬ posted.Permits t.layout σ := by
  intro b cycle e t y σ
  have hrun : succeedsWith (imposeExpr {} e []) t (fun _ _ => true) = true := by decide +kernel
  have hrun' : succeedsWith (imposeExpr {} (.op .or [e]) []) t
      (fun _ forced => decide (forced.program.Solves y)) = true := by
    decide +kernel
  obtain ⟨u, posted, h, -⟩ := exists_of_succeedsWith hrun
  obtain ⟨u', forced, hforced, hsolves⟩ := exists_of_succeedsWith hrun'
  refine ⟨posted, forced, u, u', h, hforced, ⟨y, of_decide_eq_true hsolves, fun _ _ => rfl⟩, ?_⟩
  rintro ⟨x, hx, -⟩
  have ht : t.Reachable {} := .register .start fun column hc => by cases hc
  let P : VarKey → Prop := fun k => t.layout.Has ⟨k, ""⟩
  have hP : t.Scopes P := ht.wellFormed.inScope
  have hpair : ∀ j k : Int, ∀ a ∈ [Expr.const j, .const k], a.Among P := fun j k =>
    List.forall_mem_cons.2 ⟨.const j, List.forall_mem_singleton.2 (.const k)⟩
  have hcycle : cycle.Among P :=
    .global (hpair 1 0) (List.forall_mem_nil _) (List.forall_mem_nil _)
  have he : e.Among P := .global (List.forall_mem_cons.2 ⟨hcycle, hpair 0 1⟩)
    (List.forall_mem_nil _) (List.forall_mem_nil _)
  have hmeets : e.Meets (posted.layout.valuation x) :=
    (enforces_imposeExpr ht.wellFormed hP he (List.forall_mem_nil _) h).sound _ x hx
      (fun _ _ _ => rfl) (List.forall_mem_nil _)
  exact not_meets_distinct_of_truth hmeets

end Draft

end Linearization
