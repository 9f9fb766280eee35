import Linearization.Proofs.Expr.Outcome
import Linearization.Proofs.Translation.Offers

/-!
# Expanding a global over chosen values

Expanding a global registers what its decomposition introduces and uses. The members then come to
what the global comes to, for some choice of the values that this opens (`Draft.Unfolds`): for a
cycle the order of its nodes, and for any other global nothing, since what a constraint introduces
itself is in scope before.
-/

namespace Linearization

open Linearization.Valuation

/-- The variables of the expression and of its decompositions are among the given ones. -/
abbrev Expr.Among (P : VarKey → Prop) (e : Expr) : Prop := e.AllVars fun v => P v.toVarKey

/-- The draft in which a global is expanded. -/
abbrev Draft.expanded (t : Draft) (d : Decomposition) : Draft :=
  t.withVars (d.newVars ++ varsOf d.constraints)

/-- The members use the opened scope, and over its values they come to what the global comes to. -/
structure Draft.Unfolds {ι : Type} (t : Draft) (g : Global) (d : Decomposition)
    (P P' : VarKey → Prop) (valid : ι → Prop) (mix : Valuation → ι → Valuation) : Prop where
  opens : t.Opens (t.expanded d) P P' valid mix
  scopes : (t.expanded d).Scopes P'
  members : ∀ c ∈ d.constraints, c.Among P'
  yields : ∀ σ o, (Expr.global g).Yields σ o ↔
    ∃ i, valid i ∧ (Expr.all d.constraints).Yields (mix σ i) o
  meets : (∀ args, g ≠ .plain .allDifferent args) → ∀ σ, (Expr.global g).Meets σ ↔
    ∃ i, valid i ∧ ∀ c ∈ d.constraints, c.Meets (mix σ i)

namespace Draft

variable {t : Draft} {g : Global} {d : Decomposition} {args : List Expr} {P Q : VarKey → Prop}
  {v : Var} {first size : Nat} {σ : Valuation} {order : Nat → Int}

/-- What is introduced or used is in the scope if the members use nothing else. -/
theorem mem_expanded (hnew : ∀ v ∈ d.newVars, Q v.toVarKey)
    (hmembers : ∀ c ∈ d.constraints, c.Among Q) :
    ∀ v ∈ d.newVars ++ varsOf d.constraints, Q v.toVarKey := by
  intro v hv
  rcases List.mem_append.1 hv with hv | hv
  · exact hnew v hv
  · obtain ⟨c, hc, hv⟩ := mem_occurrencesInAll.1 (Translate.mem_varsOf hv)
    exact (hmembers c hc).of_mem_occurrences hv

theorem inOrder_expanded (hwf : t.WellFormed) (hP : t.Scopes P) (hg : (Expr.global g).Among P)
    (hd : g.decompose t.program.columns.size = some d) :
    t.InOrder (d.newVars ++ varsOf d.constraints) :=
  (Translate.inOrder_expand hwf (hg.mono hP) hd).2

theorem unfolds_of_scope (hwf : t.WellFormed) (hP : t.Scopes P) (hg : (Expr.global g).Among P)
    (hcircuit : ∀ args, g ≠ .plain .circuit args)
    (hd : g.decompose t.program.columns.size = some d) :
    t.Unfolds g d P P (fun _ : Unit => True) fun σ _ => σ := by
  have hmembers := hg.members hcircuit hd
  have hnew : ∀ v ∈ d.newVars, P v.toVarKey := by
    rw [newVars_eq_of_decompose hcircuit hd]
    cases hg with
    | global _ _ hnew => exact hnew
  have hgrows := t.grows_withVars (d.newVars ++ varsOf d.constraints)
  refine ⟨opens_of_scope hwf (inOrder_expanded hwf hP hg hd) (mem_expanded hnew hmembers),
    hP.mono hgrows, hmembers, fun σ o => ?_, fun hdistinct σ => ?_⟩
  · rw [Expr.yields_decomposed_iff hcircuit hd]
    exact ⟨fun h => ⟨(), trivial, h⟩, fun ⟨_, _, h⟩ => h⟩
  · rw [Expr.meets_decomposed_iff hcircuit hdistinct hd]
    exact ⟨fun h => ⟨(), trivial, h⟩, fun ⟨_, _, h⟩ => h⟩

/-! ## Cycles -/

/-- The scope together with the nodes of a cycle in their order. -/
def WithOrder (P : VarKey → Prop) (first size : Nat) (k : VarKey) : Prop :=
  P k ∨ k ∈ keysOf ((List.range size).map (orderVar first size))

theorem mem_orderVars {k : VarKey}
    (h : k ∈ keysOf ((List.range size).map (orderVar first size))) :
    ∃ step < size, k = (orderVar first size step).toVarKey := by
  obtain ⟨v, hv, rfl⟩ := List.mem_map.1 h
  obtain ⟨step, hstep, rfl⟩ := List.mem_map.1 hv
  exact ⟨step, List.mem_range.1 hstep, rfl⟩

/-- The nodes are numbered for columns that do not exist yet. -/
theorem not_inScope_of_orderVar {n : Nat}
    (h : v.toVarKey ∈ keysOf ((List.range size).map (orderVar n size))) : ¬ v.InScope n := by
  intro hscope
  obtain ⟨step, -, heq⟩ := mem_orderVars h
  have hserial : v.serial = .introduced (n + step) := congrArg VarKey.serial heq
  have := hscope _ hserial
  omega

theorem Scopes.not_orderVar {k : VarKey} (hP : t.Scopes P) (hk : P k) :
    k ∉ keysOf ((List.range size).map (orderVar t.program.columns.size size)) := fun hmem =>
  not_inScope_of_orderVar (v := ⟨k, ""⟩) hmem (hP ⟨k, ""⟩ hk)

theorem newVars_circuitDecomposition (n : Nat) (args : List Expr) :
    (circuitDecomposition n args).newVars =
      (List.range args.length).map (orderVar n args.length) := by
  cases args <;> rfl

theorem isVisit_valuation {x : Assignment} (hwf : t.WellFormed) (hx : t.program.Solves x)
    (hhas : ∀ step < size, t.layout.Has (orderVar first size step)) :
    IsVisit size fun step => t.layout.valuation x (orderVar first size step).toVarKey := by
  intro step hstep
  have hadmits := hwf.admits hx (hhas step hstep)
  have hupper : t.layout.valuation x (orderVar first size step).toVarKey ≤ (size : Int) - 1 :=
    hadmits.2
  exact ⟨hadmits.1, Int.lt_of_le_sub_one hupper⟩

/-- The order in which a cycle visits its nodes can be chosen. -/
theorem opens_circuit {vs : List Var} (hwf : t.WellFormed) (hP : t.Scopes P)
    (horder : t.InOrder vs)
    (hnodes : ∀ step < size, orderVar t.program.columns.size size step ∈ vs)
    (hvs : ∀ v ∈ vs, WithOrder P t.program.columns.size size v.toVarKey) :
    t.Opens (t.withVars vs) P (WithOrder P t.program.columns.size size) (IsVisit size)
      fun σ order => withOrder σ t.program.columns.size size order := by
  have hhas : ∀ step < size, (t.withVars vs).layout.Has
      (orderVar t.program.columns.size size step) := fun step hstep =>
    has_withVars.2 (.inl (List.mem_map_of_mem (hnodes step hstep)))
  have hvalue : ∀ σ order {step}, step < size → withOrder σ t.program.columns.size size order
      (orderVar t.program.columns.size size step).toVarKey = order step := fun σ order step hstep =>
    orderOf_withOrder hstep
  refine opens_withVars hwf horder hvs (fun v hv => hv.imp_right not_inScope_of_orderVar)
    (fun σ order k hk => ⟨.inl hk, if_neg (hP.not_orderVar hk)⟩) (fun σ order v hvisit hv hnot => ?_)
    ⟨fun _ => 0, fun step hstep => ⟨Int.le_refl 0, Int.ofNat_lt.2 (Nat.zero_lt_of_lt hstep)⟩⟩
    fun σ y hy => ?_
  · obtain ⟨step, hstep, heq⟩ := mem_orderVars (hv.resolve_left hnot)
    rw [heq, hvalue σ order hstep]
    exact ⟨(hvisit step hstep).1, Int.le_sub_one_of_lt (hvisit step hstep).2⟩
  · refine ⟨_, isVisit_valuation (hwf.withVars horder) hy hhas, fun v hv hnot => ?_⟩
    obtain ⟨step, hstep, heq⟩ := mem_orderVars (hv.resolve_left hnot)
    rw [Layout.has_congr heq, heq, hvalue _ _ hstep]
    exact ⟨hhas step hstep, rfl⟩

/-- A cycle unfolds for every order of its nodes. -/
theorem unfolds_circuit (hwf : t.WellFormed) (hP : t.Scopes P)
    (hg : (Expr.global (.plain .circuit args)).Among P) :
    t.Unfolds (.plain .circuit args) (circuitDecomposition t.program.columns.size args) P
      (WithOrder P t.program.columns.size args.length) (IsVisit args.length)
      fun σ order => withOrder σ t.program.columns.size args.length order := by
  have hnew : ∀ v ∈ (circuitDecomposition t.program.columns.size args).newVars,
      WithOrder P t.program.columns.size args.length v.toVarKey := by
    rw [newVars_circuitDecomposition]
    exact fun v hv => .inr (List.mem_map_of_mem hv)
  have hmembers := hg.decompose (n := t.program.columns.size) rfl (fun v hv => .inl hv) hnew
  have horder := inOrder_expanded hwf hP hg rfl
  have hargs : ∀ e ∈ args, e.AllVars fun v => P v.toVarKey := by
    cases hg with
    | global hargs _ _ => exact hargs
  have hfresh : ∀ v : Var, P v.toVarKey → v.toVarKey ∉
      keysOf ((List.range args.length).map (orderVar t.program.columns.size args.length)) :=
    fun v hv => hP.not_orderVar hv
  refine ⟨opens_circuit hwf hP horder (fun step hstep => List.mem_append_left _ ?_)
    (mem_expanded hnew hmembers), fun v hv => ?_, hmembers,
    fun σ o => Expr.yields_circuit_iff hargs hfresh, fun _ σ => Expr.meets_circuit_iff hargs hfresh⟩
  · rw [newVars_circuitDecomposition]
    exact List.mem_map_of_mem (List.mem_range.2 hstep)
  · have hgrows := t.grows_withVars ((circuitDecomposition t.program.columns.size args).newVars ++
      varsOf (circuitDecomposition t.program.columns.size args).constraints)
    rcases hv with hv | hv
    · exact (hP v hv).mono hgrows.program.size_le
    · refine (hwf.withVars horder).inScope v (has_withVars.2 (.inl ?_))
      rw [keysOf, List.map_append, List.mem_append, newVars_circuitDecomposition]
      exact .inl hv

/-- Any global with a decomposition unfolds. -/
theorem exists_unfolds (hwf : t.WellFormed) (hP : t.Scopes P) (hg : (Expr.global g).Among P)
    (hd : g.decompose t.program.columns.size = some d) :
    ∃ (ι : Type) (P' : VarKey → Prop) (valid : ι → Prop) (mix : Valuation → ι → Valuation),
      t.Unfolds g d P P' valid mix := by
  by_cases hcircuit : ∃ args, g = .plain .circuit args
  · obtain ⟨args, rfl⟩ := hcircuit
    cases hd
    exact ⟨_, _, _, _, unfolds_circuit hwf hP hg⟩
  · have hne : ∀ args, g ≠ .plain .circuit args := fun args h => hcircuit ⟨args, h⟩
    exact ⟨_, _, _, _, unfolds_of_scope hwf hP hg hne hd⟩

end Draft

end Linearization
