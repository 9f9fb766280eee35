import Linearization.Proofs.Translation.Posts

/-!
# Expanding a global that introduces variables

Before the members of a decomposition are looked at, the variables that it introduces are
registered. For a postable global they are new and can be chosen from their domains, and the members
are postable over what is registered then (`Expands`). Every choice of the introduced variables is
taken by some extension of an earlier solution (`Expands.exists_values`).
-/

namespace Linearization

open Linearization.Valuation

/-- The decomposition of a global, seen from the draft at which it is expanded. -/
structure Draft.Expands (t : Draft) (g : Global) (d : Decomposition) : Prop where
  order : t.InOrder d.newVars
  new : ∀ v ∈ d.newVars, ¬ t.layout.Has v
  nonempty : ∀ v ∈ d.newVars, v.domain.lower ≤ v.domain.upper
  bound : ∀ v ∈ d.newVars, v.toVarKey ∈ keysOf (Expr.global g).bound ∨ ¬ v.IsDeclared
  members : ∀ c ∈ d.constraints, c.Postable
  covers : ∀ c ∈ d.constraints, (t.withVars d.newVars).layout.Covers c
  inner : ∀ v ∈ boundInAll d.constraints, v.toVarKey ∈ keysOf (Expr.global g).bound
  fresh : (t.withVars d.newVars).layout.Fresh (boundInAll d.constraints)

variable {t t' : Draft} {g : Global} {d : Decomposition} {args : List Expr} {vs : List Var}
  {v : Var} {x : Assignment} {τ : Valuation}

namespace Draft

theorem covers_of_decompose (hc : t.layout.Covers (.global g)) {n : Nat}
    (hd : g.decompose n = some d) :
    ∀ c ∈ d.constraints, (t.withVars d.newVars).layout.Covers c := fun c hmem v hv =>
  has_withVars.2 ((mem_occurrences_of_decompose hd c hmem v hv).elim (fun h => .inr (hc v h)) .inl)

theorem expands_of_flat (hflat : (Expr.global g).Flat) (hc : t.layout.Covers (.global g)) {n : Nat}
    (hd : g.decompose n = some d) : t.Expands g d := by
  obtain ⟨hnew, hmembers⟩ := hflat.decompose hd
  have hnone : ∀ {P : Var → Prop}, ∀ v ∈ d.newVars, P v := by
    rw [hnew]
    exact List.forall_mem_nil _
  have hbound : boundInAll d.constraints = [] :=
    Expr.boundInAll_eq_nil fun c hc => (hmembers c hc).bound_eq_nil
  refine ⟨by rw [hnew]; trivial, hnone, hnone, hnone, fun c hc => .of_flat (hmembers c hc),
    covers_of_decompose hc hd, ?_, ?_⟩
  · rw [hbound]
    exact List.forall_mem_nil _
  · rw [hbound]
    exact .nil _

theorem expands_circuit (hwf : t.WellFormed) (hargs : ∀ e ∈ args, e.Flat)
    (hc : t.layout.Covers (.global (.plain .circuit args))) :
    t.Expands (.plain .circuit args) (circuitDecomposition t.program.columns.size args) := by
  have hmembers := flat_circuitDecomposition (n := t.program.columns.size) hargs
  have hbound : boundInAll (circuitDecomposition t.program.columns.size args).constraints = [] :=
    Expr.boundInAll_eq_nil fun c hc => (hmembers c hc).bound_eq_nil
  have hvar : ∀ v ∈ (circuitDecomposition t.program.columns.size args).newVars,
      ∃ step, v = orderVar t.program.columns.size args.length step ∧ 0 < args.length := by
    intro v hv
    cases args with
    | nil => cases hv
    | cons first rest =>
      obtain ⟨step, -, rfl⟩ := List.mem_map.1 hv
      exact ⟨step, rfl, Nat.succ_pos _⟩
  refine ⟨Translate.inOrder_newVars (g := .plain .circuit args) hwf (List.forall_mem_nil _) rfl,
    fun v hv hhas => ?_, fun v hv => ?_, fun v hv => .inr ?_, fun c hc => .of_flat (hmembers c hc),
    covers_of_decompose hc rfl, ?_, ?_⟩
  · obtain ⟨step, rfl, -⟩ := hvar v hv
    have := hwf.inScope _ hhas _ rfl
    omega
  · obtain ⟨step, rfl, hpos⟩ := hvar v hv
    show (0 : Int) ≤ (args.length : Int) - 1
    omega
  · obtain ⟨step, rfl, -⟩ := hvar v hv
    rintro ⟨number, hserial⟩
    cases hserial
  · rw [hbound]
    exact List.forall_mem_nil _
  · rw [hbound]
    exact .nil _

/-- The variables of a decomposition that a constraint comes with are new if they are fresh. -/
theorem expands_defined {name : String} {constraints : List Expr} {newVars : List Var}
    (hmembers : ∀ c ∈ constraints, c.Postable)
    (hc : t.layout.Covers (.global (.defined name args constraints newVars)))
    (hfresh : t.layout.Fresh (Expr.global (.defined name args constraints newVars)).bound) :
    t.Expands (.defined name args constraints newVars) ⟨constraints, newVars⟩ := by
  have hfirst : t.layout.Fresh (firstOfEach newVars) := hfresh.left
  have hkey : ∀ v ∈ newVars, ∃ w ∈ firstOfEach newVars, w.toVarKey = v.toVarKey := fun v hv =>
    List.mem_map.1 (mem_keysOf_firstOfEach hv)
  have hdeclared : ∀ v ∈ newVars, v.IsDeclared := fun v hv => by
    obtain ⟨w, hw, heq⟩ := hkey v hv
    obtain ⟨number, hnumber⟩ := hfirst.declared w hw
    exact ⟨number, (congrArg VarKey.serial heq.symm).trans hnumber⟩
  have hbound : (Expr.global (.defined name args constraints newVars)).bound =
    firstOfEach newVars ++ boundInAll constraints := rfl
  refine ⟨inOrder_of_inScope fun v hv => (hdeclared v hv).inScope _, fun v hv hhas => ?_,
    fun v hv => ?_, fun v hv => .inl ?_, hmembers, covers_of_decompose (n := 0) hc rfl,
    fun v hv => ?_, ?_⟩
  · obtain ⟨w, hw, heq⟩ := hkey v hv
    refine hfirst.new w hw ?_
    rwa [Layout.has_congr heq]
  · obtain ⟨w, hw, heq⟩ := hkey v hv
    have hdomain : w.domain = v.domain := congrArg VarKey.domain heq
    rw [← hdomain]
    exact hfirst.nonempty w hw
  · rw [hbound, keysOf, List.map_append]
    exact List.mem_append_left _ (mem_keysOf_firstOfEach hv)
  · rw [hbound, keysOf, List.map_append]
    exact List.mem_append_right _ (List.mem_map_of_mem hv)
  · refine Layout.Fresh.right (r := t.layout) hfresh fun v hv => ?_
    rcases has_withVars.1 hv with hv | hv
    · obtain ⟨w, hw, heq⟩ := List.mem_map.1 hv
      exact .inr (.inl (heq ▸ mem_keysOf_firstOfEach hw))
    · exact .inl hv

theorem expands_of_postable (hwf : t.WellFormed) (hpost : (Expr.global g).Postable)
    (hc : t.layout.Covers (.global g)) (hfresh : t.layout.Fresh (Expr.global g).bound)
    (hd : g.decompose t.program.columns.size = some d) : t.Expands g d := by
  cases hpost with
  | of_flat hflat => exact expands_of_flat hflat hc hd
  | circuit hargs =>
    cases hd
    exact expands_circuit hwf hargs hc
  | defined hmembers =>
    cases hd
    exact expands_defined hmembers hc hfresh

namespace Expands

theorem wellFormed (h : t.Expands g d) (hwf : t.WellFormed) :
    (t.withVars d.newVars).WellFormed := hwf.withVars h.order

theorem withVars_eq (h : t.Expands g d) :
    t.withVars (d.newVars ++ varsOf d.constraints) = t.withVars d.newVars := by
  rw [withVars_append]
  refine withVars_of_has fun v hv => ?_
  obtain ⟨c, hc, hv⟩ := mem_occurrencesInAll.1 (Translate.mem_varsOf hv)
  exact h.covers c hc v hv

/-- Every choice of the introduced variables is taken by an extension of an earlier solution. -/
theorem exists_values (h : t.Expands g d) (hwf : t.WellFormed) (hx : t.program.Solves x)
    (hτ : τ ∈ (t.layout.valuation x).extensions d.newVars) :
    ∃ y, AgreeBelow t.program.columns.size x y ∧ (t.withVars d.newVars).program.Solves y ∧
      ∀ w, (t.withVars d.newVars).layout.Has w →
        (t.withVars d.newVars).layout.valuation y w.toVarKey = τ w.toVarKey := by
  obtain ⟨hout, hin⟩ := mem_extensions.1 hτ
  refine Draft.exists_values hwf h.order hx (fun w hw => (hout _ fun hmem => ?_).symm)
    fun v hv _ => hin v hv
  obtain ⟨v, hv, heq⟩ := List.mem_map.1 hmem
  refine h.new v hv ?_
  rwa [Layout.has_congr heq]

theorem exists_extension (h : t.Expands g d) (σ : Valuation) : ∃ τ, τ ∈ σ.extensions d.newVars := by
  refine ⟨fun k => if k ∈ keysOf d.newVars then k.domain.lower else σ k,
    mem_extensions.2 ⟨fun k hk => if_neg hk, fun v hv => ?_⟩⟩
  rw [if_pos (List.mem_map_of_mem hv)]
  exact ⟨Int.le_refl _, h.nonempty v hv⟩

theorem freshFor (h : t.Expands g d) (hc : t.layout.Covers (.global g)) :
    FreshFor d.newVars g.args := fun v hv _ he w hw heq =>
  h.new v hv ((Layout.has_congr heq).1 (hc w (mem_occurrences_of_child he hw)))

/-- A global whose variables are registered holds exactly if the introduced variables can be chosen
so that the members hold. -/
theorem holds_iff (h : t.Expands g d) (hc : t.layout.Covers (.global g)) {n : Nat}
    (hd : g.decompose n = some d) (hnative : ∀ args, g ≠ .plain .allDifferent args)
    (σ : Valuation) :
    g.holds σ = true ↔ ∃ τ ∈ σ.extensions d.newVars, holdsAll τ d.constraints = true := by
  refine holds_iff_decompose hd hnative ?_
  rintro args rfl
  exact h.freshFor hc

theorem has_members (h : t.Expands g d) (hv : (t.withVars d.newVars).layout.Has v ∨
    v.toVarKey ∈ keysOf (boundInAll d.constraints) ∨ ¬ v.IsDeclared) :
    t.layout.Has v ∨ v.toVarKey ∈ keysOf (Expr.global g).bound ∨ ¬ v.IsDeclared := by
  rcases hv with hv | hv | hv
  · rcases has_withVars.1 hv with hv | hv
    · obtain ⟨w, hw, heq⟩ := List.mem_map.1 hv
      rcases h.bound w hw with hmem | hdeclared
      · exact .inr (.inl (heq ▸ hmem))
      · refine .inr (.inr fun ⟨number, hnumber⟩ => hdeclared ⟨number, ?_⟩)
        exact (congrArg VarKey.serial heq).trans hnumber
    · exact .inl hv
  · obtain ⟨w, hw, heq⟩ := List.mem_map.1 hv
    exact .inr (.inl (heq ▸ h.inner w hw))
  · exact .inr (.inr hv)

/-- Where the global has to hold, the introduced variables are chosen so that the members do;
elsewhere any choice will do. -/
theorem exists_guarded (h : t.Expands g d) {P : Prop} {σ : Valuation}
    (hg : g.holds σ = true ↔ ∃ τ ∈ σ.extensions d.newVars, holdsAll τ d.constraints = true)
    (hP : P → g.holds σ = true) :
    ∃ τ ∈ σ.extensions d.newVars, P → holdsAll τ d.constraints = true := by
  by_cases hp : P
  · obtain ⟨τ, hτ, hall⟩ := hg.1 (hP hp)
    exact ⟨τ, hτ, fun _ => hall⟩
  · obtain ⟨τ, hτ⟩ := h.exists_extension σ
    exact ⟨τ, hτ, fun h => absurd h hp⟩

theorem posts (h : t.Expands g d) (hwf : t.WellFormed) {guards : List Literal}
    (hguards : Local t.program.columns.size (Literal.AllHold guards))
    (hposts : (t.withVars d.newVars).Posts t' (boundInAll d.constraints)
      (Translate.Guarded guards fun σ => holdsAll σ d.constraints = true))
    (hg : ∀ σ, g.holds σ = true ↔
      ∃ τ ∈ σ.extensions d.newVars, holdsAll τ d.constraints = true) :
    t.Posts t' (Expr.global g).bound (Translate.Guarded guards fun σ => g.holds σ = true) := by
  have hgrows := t.grows_withVars d.newVars
  refine ⟨hposts.wellFormed, hgrows.layout.trans hposts.layout,
    fun v hv => h.has_members (hposts.new v hv), hgrows.program.trans hposts.imposes.grows,
    hposts.imposes.wellFormed, fun y hy hhold => ?_, fun x hx hneed => ?_⟩
  · -- Sound: the columns of the introduced variables are a choice for which the members hold.
    refine (hg _).2 ⟨_, ?_, hposts.imposes.sound y hy hhold⟩
    exact valuation_mem_extensions (h.wellFormed hwf) (hposts.imposes.grows.solves hy)
  · -- Complete: the choice for which the members hold is taken by an extension.
    obtain ⟨τ, hτ, hmembers⟩ := h.exists_guarded (hg _) hneed
    obtain ⟨y, hxy, hy, hvalues⟩ := h.exists_values hwf hx hτ
    obtain ⟨z, hyz, hz⟩ := hposts.imposes.complete y hy fun hhold => by
      have hall := hmembers ((hguards x y hxy).2 hhold)
      rw [holdsAll_iff] at hall
      refine (holdsAll_iff _ _).2 fun c hmem => ?_
      rw [truthHasFrame c ((h.covers c hmem).agree hvalues)]
      exact hall c hmem
    exact ⟨z, hxy.trans (hyz.mono hgrows.program.size_le), hz⟩

end Expands

end Draft

end Linearization
