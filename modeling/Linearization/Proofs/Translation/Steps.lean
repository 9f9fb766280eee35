import Linearization.Proofs.Expr.Equivalence
import Linearization.Proofs.Ilp.Steps
import Linearization.Proofs.Translation.Draft
import Linearization.Translation.Basic

/-!
# Elementary steps of a translation

How the steps that a translation is made of read as changes of the draft: extending the program,
looking a variable up, registering variables, going one level of decomposition deeper, expanding a
global, working through the items of a list and going through the levels of decomposition.
-/

namespace Linearization

open Linearization.Valuation

namespace Operator

/-- A connective that has a form inside of expressions. -/
def IsConnective (o : Operator) : Prop := o = and ∨ o = or ∨ o = implies

/-- An operator on integers. -/
def IsArithmetic (o : Operator) : Prop :=
  o = neg ∨ o = abs ∨ o = sub ∨ o = mul ∨ o = div ∨ o = mod ∨ o = pow ∨ o = sum

theorem eq_xor_or (o : Operator) : o = xor ∨ o.IsConnective ∨ o.IsArithmetic := by
  cases o <;> simp [IsConnective, IsArithmetic]

end Operator

namespace Translate

variable {α β : Type} {t t' : Draft} {v : Var} {vs : List Var} {e : Expr}
  {es : List Expr} {g : Global} {limit : Nat}
  {deeper : Option Deeper}

/-! ## Successful steps -/

theorem build_eq_ok {action : Lowering α} {a : α} :
    build e action t = .ok a t' ↔
      ∃ q, action t.program = .ok a q ∧ t' = { t with program := q } := by
  unfold build
  cases action t.program with
  | ok b q =>
    constructor
    · intro h
      cases h
      exact ⟨q, rfl, rfl⟩
    · rintro ⟨_, h, rfl⟩
      cases h
      rfl
  | error error q => simp

theorem nested_of_ok {m : Translate α} {a : α}
    (h : m { t with depth := t.depth + 1, deepest := max t.deepest (t.depth + 1) } = .ok a t') :
    nested m t = .ok a { t' with depth := t'.depth - 1 } := by
  unfold nested
  dsimp only
  rw [h]

theorem nested_of_error {m : Translate α} {error : TranslationError}
    (h : m { t with depth := t.depth + 1, deepest := max t.deepest (t.depth + 1) } =
      .error error t') :
    nested m t = .error error { t' with depth := t'.depth - 1 } := by
  unfold nested
  dsimp only
  rw [h]

theorem nested_eq_ok {m : Translate α} {a : α} (h : nested m t = .ok a t') :
    ∃ s, m { t with depth := t.depth + 1, deepest := max t.deepest (t.depth + 1) } = .ok a s ∧
      t' = { s with depth := s.depth - 1 } := by
  cases hrun : m { t with depth := t.depth + 1, deepest := max t.deepest (t.depth + 1) } with
  | ok b s =>
    cases (nested_of_ok hrun).symm.trans h
    exact ⟨s, rfl, rfl⟩
  | error error s => cases (nested_of_error hrun).symm.trans h

theorem imageOf_eq_ok {image : Image} (h : imageOf v t = .ok image t') :
    t.layout.get? v = some image ∧ t = t' := by
  unfold imageOf at h
  simp only [bind_eq_ok, get_eq_ok] at h
  obtain ⟨_, _, ⟨rfl, rfl⟩, h⟩ := h
  cases hv : t.layout.get? v with
  | none =>
    rw [hv] at h
    cases throw_eq_ok.1 h
  | some i =>
    rw [hv] at h
    obtain ⟨rfl, rfl⟩ := pure_eq_ok.1 h
    exact ⟨rfl, rfl⟩

theorem register_run (v : Var) (t : Draft) :
    ∃ image, register v t = .ok image (t.withVar v) := by
  unfold register Draft.withVar
  cases h : t.layout.get? v with
  | some image =>
    refine ⟨image, bind_eq_ok.2 ⟨t, t, rfl, ?_⟩⟩
    rw [h]
    rfl
  | none =>
    refine ⟨v.imageAt t.program.columns.size, bind_eq_ok.2 ⟨t, t, rfl, ?_⟩⟩
    rw [h]
    rfl

theorem registerAll_run (vs : List Var) (t : Draft) :
    registerAll vs t = .ok () (t.withVars vs) := by
  unfold registerAll
  induction vs generalizing t with
  | nil => rfl
  | cons v vs ih =>
    obtain ⟨image, hv⟩ := register_run v t
    rw [List.forM_eq_forM, List.forM_cons, bind_eq_ok]
    refine ⟨(), t.withVar v, ?_, ih (t.withVar v)⟩
    exact map_eq_ok.2 ⟨image, hv, rfl⟩

theorem expand_eq_ok {level : Deeper} {cs : List Expr}
    (h : expand limit deeper g t = .ok (level, cs) t') :
    deeper = some level ∧ ∃ d, g.decompose t.program.columns.size = some d ∧ cs = d.constraints ∧
      t' = (t.withVars (d.newVars ++ varsOf d.constraints)).logged g := by
  unfold expand at h
  cases deeper with
  | none => cases throw_eq_ok.1 h
  | some l =>
    simp only [bind_eq_ok, get_eq_ok] at h
    obtain ⟨_, _, ⟨rfl, rfl⟩, h⟩ := h
    cases hd : g.decompose t.program.columns.size with
    | none =>
      rw [hd] at h
      cases throw_eq_ok.1 h
    | some d =>
      rw [hd] at h
      simp only [bind_eq_ok, pure_eq_ok, modify_eq_ok, registerAll_run] at h
      obtain ⟨_, _, hrun, _, _, rfl, hpair, rfl⟩ := h
      cases hrun
      cases hpair
      exact ⟨rfl, d, rfl, rfl, rfl⟩

/-! ## Operators -/

theorem lower_connective {o : Operator} (ho : o.IsConnective) :
    lower limit deeper (.op o es) = do
      checkArity o es
      let ls ← literals limit deeper es
      return .literal (← build (.op o es) (connective o ls)) := by
  rcases ho with rfl | rfl | rfl <;> rw [lower]

theorem lower_arithmetic {o : Operator} (ho : o.IsArithmetic) :
    lower limit deeper (.op o es) = do
      checkArity o es
      let forms ← affines limit deeper es
      return .ofAffine (← arithmetic o es forms) := by
  rcases ho with rfl | rfl | rfl | rfl | rfl | rfl | rfl | rfl <;> rw [lower] <;> exact nofun

/-! ## Several expressions -/

theorem affines_eq_mapM (es : List Expr) :
    affines limit deeper es = es.mapM (affine limit deeper) := by
  induction es with
  | nil => rfl
  | cons e es ih => simp [affines, affine, ih]

theorem literals_eq_mapM (es : List Expr) :
    literals limit deeper es = es.mapM (literal limit deeper) := by
  induction es with
  | nil => rfl
  | cons e es ih => simp [literals, literal, ih]

theorem lowerAll_eq_mapM (es : List Expr) :
    lowerAll limit deeper es = es.mapM (lower limit deeper) := by
  induction es with
  | nil => rfl
  | cons e es ih => simp [lowerAll, ih]

theorem imposeAll_eq_forM (es : List Expr) (guards : List Literal) :
    imposeAll limit deeper es guards = es.forM fun e => impose limit deeper e guards := by
  induction es with
  | nil => rfl
  | cons e es ih => simp [imposeAll, ih]

/-! ## Levels of decomposition -/

/-- What the members of a decomposition are given to when so many levels are left. -/
def below (limit : Nat) : Nat → Option Deeper
  | 0 => none
  | levels + 1 => some ⟨lowerWithin limit levels, imposeWithin limit levels⟩

theorem lowerWithin_eq (limit levels : Nat) :
    lowerWithin limit levels = lower limit (below limit levels) := by
  cases levels <;> rfl

theorem imposeWithin_eq (limit levels : Nat) :
    imposeWithin limit levels = impose limit (below limit levels) := by
  cases levels <;> rfl

theorem imposeExpr_eq (config : Config) (e : Expr) (guards : List Literal) (t : Draft) :
    imposeExpr config e guards t = impose config.maxDecompositionDepth
      (below config.maxDecompositionDepth (config.maxDecompositionDepth - t.depth)) e guards t := by
  unfold imposeExpr
  rw [imposeWithin_eq]

/-- What passes on from the level below holds of every level. -/
theorem forall_below {Q : Deeper → Prop}
    (hstep : ∀ deeper : Option Deeper, (∀ level, deeper = some level → Q level) →
      Q ⟨lower limit deeper, impose limit deeper⟩) (levels : Nat) :
    ∀ level, below limit levels = some level → Q level := by
  induction levels with
  | zero => exact fun level h => by cases h
  | succ levels ih =>
    intro level h
    cases h
    rw [lowerWithin_eq, imposeWithin_eq]
    exact hstep _ ih

/-! ## Expansion -/

theorem mem_varsOf {es : List Expr} (hv : v ∈ varsOf es) : v ∈ occurrencesInAll [] es := by
  have hfirst : ∀ vs : List Var, v ∈ firstOfEach vs → v ∈ vs := by
    intro vs
    induction vs with
    | nil => exact id
    | cons w vs ih =>
      intro h
      rcases List.mem_cons.1 h with rfl | h
      · exact List.mem_cons_self
      · exact List.mem_cons_of_mem _ (ih (List.mem_filter.1 h).1)
  exact hfirst _ hv

/-- The variables that a decomposition introduces are declared or numbered for their columns. -/
theorem inOrder_newVars {d : Decomposition} (h : t.WellFormed)
    (hnew : ∀ v ∈ g.newVars, v.InScope t.program.columns.size)
    (hd : g.decompose t.program.columns.size = some d) : t.InOrder d.newVars := by
  by_cases hcircuit : ∃ args, g = .plain .circuit args
  · obtain ⟨args, rfl⟩ := hcircuit
    cases hd
    cases args with
    | nil => trivial
    | cons first rest =>
      show t.InOrder ((List.range _).map _)
      rw [List.range_eq_range']
      exact Draft.inOrder_orderVars h rfl
  · rw [newVars_eq_of_decompose (fun args heq => hcircuit ⟨args, heq⟩) hd]
    exact Draft.inOrder_of_inScope hnew

theorem inOrder_expand {d : Decomposition} (h : t.WellFormed)
    (hg : (Expr.global g).AllVars (Var.InScope t.program.columns.size))
    (hd : g.decompose t.program.columns.size = some d) :
    (∀ c ∈ d.constraints,
        c.AllVars (Var.InScope (t.withVars d.newVars).program.columns.size)) ∧
      t.InOrder (d.newVars ++ varsOf d.constraints) := by
  have hscope : ∀ v ∈ g.newVars, v.InScope t.program.columns.size := by
    cases hg with
    | global _ _ hnew => exact hnew
  have horder := inOrder_newVars h hscope hd
  have hnew := h.withVars horder
  have hmembers := hg.decompose hd
    (fun v hv => hv.mono (t.grows_withVars d.newVars).program.size_le)
    fun v hv => hnew.inScope v (Draft.has_withVars.2 (.inl (List.mem_map_of_mem hv)))
  refine ⟨hmembers, Draft.inOrder_append.2 ⟨horder, Draft.inOrder_of_inScope fun v hv => ?_⟩⟩
  obtain ⟨c, hc, hv⟩ := mem_occurrencesInAll.1 (mem_varsOf hv)
  exact (hmembers c hc).of_mem_occurrences hv

end Translate

end Linearization
