import Linearization.Proofs.Translation.Enforced
import Linearization.Proofs.Translation.Registers
import Linearization.Proofs.Translation.Safety
import Linearization.Proofs.Translation.Termination

/-!
# What translations add to a layout

Of the declared variables, a translation that succeeds registers those of the expression
(`Expr.Registers`, `Expr.RegistersImposed`), whatever was registered before and however many columns
there were. So the registered variables do not depend on the order in which expressions are
translated (`Model.has_of_translate_iff`).

`Adds S m` says of a step that it adds the variables in `S`. It is shown by one walk over a single
call of the recursion.
-/

namespace Linearization

open Linearization.Valuation (keysOf)

namespace Translate

open Draft

/-- Whenever the step succeeds, of the declared variables exactly these are registered besides those
from before. -/
def Adds {α : Type} (S : VarKey → Prop) (m : Translate α) : Prop :=
  ∀ ⦃t a t'⦄, m t = .ok a t' → ∀ v : Var, v.IsDeclared →
    (t'.layout.Has v ↔ t.layout.Has v ∨ S v.toVarKey)

/-- No declared variable is registered. -/
abbrev AddsNothing {α : Type} (m : Translate α) : Prop := Adds (fun _ => False) m

variable {α β : Type} {S S' : VarKey → Prop} {m : Translate α} {f : α → Translate β}
  {limit : Nat} {self : Deeper} {guards : List Literal} {e : Expr} {es : List Expr} {g : Global}

namespace Adds

theorem congr (h : Adds S m) (hS : ∀ k : VarKey, k.IsDeclared → (S k ↔ S' k)) : Adds S' m := by
  intro t a t' hrun v hv
  rw [h hrun v hv, hS v.toVarKey hv]

theorem of_layout (h : ∀ {t a t'}, m t = .ok a t' → t'.layout = t.layout) : AddsNothing m := by
  intro t a t' hrun v _
  rw [h hrun, or_false]

theorem pure (a : α) : AddsNothing (Pure.pure a : Translate α) := of_layout fun hrun => by
  obtain ⟨-, rfl⟩ := pure_eq_ok.1 hrun
  rfl

/-- What fails adds whatever it is said to add. -/
theorem throw (error : TranslationError) : Adds S (MonadExcept.throw error : Translate α) :=
  fun _ _ _ hrun => by cases throw_eq_ok.1 hrun

theorem build (e : Expr) (action : Lowering α) : AddsNothing (Translate.build e action) :=
  of_layout fun hrun => by
    obtain ⟨q, -, rfl⟩ := build_eq_ok.1 hrun
    rfl

theorem imageOf (v : Var) : AddsNothing (Translate.imageOf v) := of_layout fun hrun => by
  obtain ⟨-, rfl⟩ := imageOf_eq_ok hrun
  rfl

theorem bind (hm : Adds S m) (hf : ∀ a, Adds S' (f a)) : Adds (fun k => S k ∨ S' k) (m >>= f) := by
  intro t b t' hrun v hv
  obtain ⟨a, s, h₁, h₂⟩ := bind_eq_ok.1 hrun
  rw [hf a h₂ v hv, hm h₁ v hv, or_assoc]

theorem andThen (hm : Adds S m) (hf : ∀ a, AddsNothing (f a)) : Adds S (m >>= f) :=
  (hm.bind hf).congr fun _ _ => or_iff_left id

theorem before (hm : AddsNothing m) (hf : ∀ a, Adds S (f a)) : Adds S (m >>= f) :=
  (hm.bind hf).congr fun _ _ => or_iff_right id

theorem map (hm : Adds S m) (f : α → β) : Adds S (f <$> m) := by
  rw [map_eq_pure_bind]
  exact hm.andThen fun a => .pure (f a)

theorem mapM {S : Expr → VarKey → Prop} {f : Expr → Translate β} (h : ∀ e, Adds (S e) (f e))
    (es : List Expr) : Adds (fun k => ∃ e ∈ es, S e k) (es.mapM f) := by
  induction es with
  | nil => exact (pure []).congr fun k _ => by simp
  | cons e es ih =>
    rw [List.mapM_cons]
    refine ((h e).bind fun b => ih.andThen fun bs => pure (b :: bs)).congr fun k _ => ?_
    rw [List.exists_mem_cons_iff]

theorem forM {S : Expr → VarKey → Prop} {f : Expr → Translate PUnit} (h : ∀ e, Adds (S e) (f e))
    (es : List Expr) : Adds (fun k => ∃ e ∈ es, S e k) (es.forM f) := by
  induction es with
  | nil => exact (pure _).congr fun k _ => by simp
  | cons e es ih =>
    rw [List.forM_eq_forM] at ih ⊢
    rw [List.forM_cons]
    refine ((h e).bind fun _ => ih).congr fun k _ => ?_
    rw [List.exists_mem_cons_iff]

theorem nested (h : Adds S m) : Adds S (Translate.nested m) := by
  intro t a t' hrun v hv
  obtain ⟨s, hs, rfl⟩ := nested_eq_ok hrun
  exact h hs v hv

theorem registerAll (vs : List Var) : Adds (fun k => k ∈ keysOf vs) (registerAll vs) := by
  intro t u t' hrun v _
  cases (registerAll_run vs t).symm.trans hrun
  rw [has_withVars, or_comm]

theorem decomposed {S : List Expr → VarKey → Prop} {f : List Expr → Translate α}
    (h : ∀ cs, Adds (S cs) (f cs)) (hS : ∀ {n d} {k : VarKey}, k.IsDeclared →
      g.decompose n = some d → (S' k ↔ d.Brings k ∨ S d.constraints k)) :
    Adds S' (Translate.decomposed limit g f) := by
  intro t a t' hrun v hv
  obtain ⟨_, _, hget, hrun⟩ := bind_eq_ok.1 hrun
  obtain ⟨rfl, rfl⟩ := get_eq_ok.1 hget
  split at hrun
  · cases throw_eq_ok.1 hrun
  obtain ⟨cs, s, hmembers, hrun⟩ := bind_eq_ok.1 hrun
  obtain ⟨_, _, hget, hmembers⟩ := bind_eq_ok.1 hmembers
  obtain ⟨rfl, rfl⟩ := get_eq_ok.1 hget
  cases hd : g.decompose t.program.columns.size with
  | none =>
    rw [hd] at hmembers
    cases throw_eq_ok.1 hmembers
  | some d =>
    rw [hd] at hmembers
    obtain ⟨_, r, hregister, hmembers⟩ := bind_eq_ok.1 hmembers
    obtain ⟨_, _, hlog, hmembers⟩ := bind_eq_ok.1 hmembers
    cases modify_eq_ok.1 hlog
    obtain ⟨rfl, rfl⟩ := pure_eq_ok.1 hmembers
    rw [(h d.constraints).nested hrun v hv, layout_logged, registerAll _ hregister v hv, hS hv hd,
      or_assoc]
    rfl

end Adds

/-! ## Steps without calls -/

theorem CallFree.addsNothing (h : CallFree m) : AddsNothing m := by
  induction h with
  | pure a => exact .pure a
  | throw error => exact .throw error
  | bind _ _ ihm ihf => exact ihm.before ihf
  | build e action => exact .build e action
  | imageOf v => exact .imageOf v

theorem itemEquality?_eq_some {c : Comparison} {lhs rhs index other : Expr} {array : List Expr}
    (h : itemEquality? c lhs rhs = some (array, index, other)) :
    lhs = .element array index ∧ rhs = other ∨ rhs = .element array index ∧ lhs = other := by
  unfold itemEquality? at h
  split at h
  · cases h
    exact .inl ⟨rfl, rfl⟩
  · cases h
    exact .inr ⟨rfl, rfl⟩
  · cases h

/-! ## One call -/

/-- Lowering and imposing add the variables that the expression registers. -/
structure AddsCalls (calls : Deeper) : Prop where
  lower : ∀ e : Expr, Adds e.Registers (calls.lower e)
  impose : ∀ (e : Expr) guards, Adds e.RegistersImposed (calls.impose e guards)

section Calls

variable (hself : AddsCalls self)

include hself

theorem adds_formBy (e : Expr) : Adds e.Registers (formBy self.lower e) :=
  (hself.lower e).andThen fun _ => .build e _

theorem adds_literalBy (e : Expr) : Adds e.Registers (literalBy self.lower e) :=
  (hself.lower e).andThen fun _ => .build e _

theorem adds_forms (es : List Expr) :
    Adds (fun k => ∃ e ∈ es, e.Registers k) (es.mapM (formBy self.lower)) :=
  .mapM (adds_formBy hself) es

theorem adds_literals (es : List Expr) :
    Adds (fun k => ∃ e ∈ es, e.Registers k) (es.mapM (literalBy self.lower)) :=
  .mapM (adds_literalBy hself) es

theorem adds_conjunction (limit : Nat) (g : Global) :
    Adds (Expr.global g).Registers (Lowered.literal <$> decomposed limit g fun cs =>
      literalBy self.lower (.all cs)) := by
  refine (Adds.decomposed (fun cs => adds_literalBy hself (.all cs)) fun hk hd => ?_).map _
  rw [Expr.registers_expanded_iff hk hd, Decomposition.Registers, Expr.registers_all_iff]

theorem adds_callLower (e : Expr) : Adds e.Registers (Deeper.callLower limit self e) := by
  have hleaf : ∀ {k}, (∀ g, e ≠ .global g) → e.children = [] → (False ↔ e.Registers k) :=
    fun he hchildren => (iff_false_intro (Expr.not_registers_of_leaf he hchildren)).symm
  cases e with
  | const c => exact (Adds.pure _).congr fun k _ => hleaf nofun rfl
  | var v => exact ((Adds.imageOf v).andThen fun _ => .pure _).congr fun k _ => hleaf nofun rfl
  | complement v =>
    refine ((Adds.imageOf v).andThen fun image => ?_).congr fun k _ => hleaf nofun rfl
    cases image with
    | bool l => exact .pure _
    | int i => exact .throw _
  | list items =>
    exact ((Adds.mapM hself.lower items).andThen fun _ => .pure _).congr fun k _ =>
      (Expr.registers_iff (e := .list items) nofun).symm
  | op o args =>
    refine (Adds.before (callFree_checkArity o args).addsNothing fun _ => ?_).congr fun k _ =>
      (Expr.registers_iff (e := .op o args) nofun).symm
    have hconnective := (adds_literals hself args).andThen fun ls =>
      (Adds.build (.op o args) (connective o ls)).andThen fun l => .pure (Lowered.literal l)
    have harithmetic := (adds_forms hself args).andThen fun forms =>
      (callFree_arithmetic o args forms).addsNothing.andThen fun form => .pure (Lowered.ofAffine form)
    cases o with
    | xor => exact .throw _
    | and => exact hconnective
    | or => exact hconnective
    | implies => exact hconnective
    | _ => exact harithmetic
  | compare c lhs rhs =>
    refine ((adds_formBy hself lhs).bind fun l => (adds_formBy hself rhs).andThen fun r =>
      .pure _).congr fun k _ => Expr.registers_compare_iff.symm
  | element array index =>
    refine ((adds_formBy hself index).bind fun i => (adds_forms hself array).andThen fun items =>
      (callFree_selectItem _ i items).addsNothing).congr fun k _ => Expr.registers_element_iff.symm
  | global g =>
    have hconjunction := adds_conjunction hself limit g
    cases g with
    | plain kind args =>
      have hextremum : ∀ kind, kind = .min ∨ kind = .max →
          Adds (Expr.global (.plain kind args)).Registers
            (args.mapM (formBy self.lower) >>= extremum kind args) := fun kind hkind =>
        ((adds_forms hself args).andThen fun forms => (callFree_extremum kind args forms).addsNothing).congr
          fun k _ => (Expr.registers_extremum_iff hkind).symm
      cases kind with
      | min => exact hextremum .min (.inl rfl)
      | max => exact hextremum .max (.inr rfl)
      | _ => exact hconjunction
    | count args value =>
      exact (hself.lower _).congr fun k _ => Expr.registers_count_iff.symm
    | cardinality args values counts => exact hconjunction
    | named name args => exact hconjunction
    | defined name args constraints newVars => exact hconjunction

theorem adds_callImposeLiteral (he : e.IsDirect) :
    Adds e.RegistersImposed (Deeper.callImposeLiteral self e guards) :=
  ((adds_literalBy hself e).andThen fun _ => .build e _).congr fun _ _ =>
    (Expr.registersImposed_direct_iff he).symm

theorem adds_callImposeComparison (c : Comparison) (lhs rhs : Expr) :
    Adds (Expr.compare c lhs rhs).RegistersImposed
      (Deeper.callImposeComparison self c lhs rhs guards) := by
  refine Adds.congr (S := fun k => lhs.Registers k ∨ rhs.Registers k) ?_ fun k _ =>
    (Expr.registersImposed_compare_iff.trans Expr.registers_compare_iff).symm
  unfold Deeper.callImposeComparison
  split
  · rename_i array index other heq
    have hitem := (adds_formBy hself index).bind fun i => (adds_forms hself array).bind fun items =>
      (adds_formBy hself other).andThen fun target =>
        .build (.compare c lhs rhs) (Lowering.enforceElement i items target guards)
    refine hitem.congr fun k _ => ?_
    rw [← or_assoc, ← Expr.registers_element_iff]
    rcases itemEquality?_eq_some heq with ⟨rfl, rfl⟩ | ⟨rfl, rfl⟩
    · exact Iff.rfl
    · exact or_comm
  · refine (hself.lower lhs).bind fun left => (hself.lower rhs).andThen fun right => ?_
    split
    · exact (callFree_imposePairs _ _ _ _).addsNothing
    · exact .throw _

theorem adds_callImposeGlobal (g : Global) :
    Adds (Expr.global g).RegistersImposed (Deeper.callImposeGlobal limit self g guards) := by
  have hfunction : g.isBoolean = false →
      Adds (Expr.global g).RegistersImposed (discard (self.lower (.global g))) := fun hg =>
    ((hself.lower (.global g)).map _).congr fun k _ => (Expr.registersImposed_function_iff hg).symm
  have hmembers : (∀ args, g ≠ .plain .allDifferent args) → Adds (Expr.global g).RegistersImposed
      (decomposed limit g fun cs => cs.forM fun c => self.impose c guards) := fun hdistinct =>
    .decomposed (fun cs => .forM (fun c => hself.impose c guards) cs) fun hk hd =>
      Expr.registersImposed_expanded_iff hk hdistinct hd
  cases g with
  | plain kind args =>
    cases kind with
    | allDifferent =>
      exact ((adds_forms hself args).andThen fun forms => .build _ _).congr fun k _ =>
        Expr.registersImposed_distinct_iff.symm
    | min => exact hfunction rfl
    | max => exact hfunction rfl
    | _ => exact hmembers nofun
  | count args value => exact hfunction rfl
  | cardinality args values counts => exact hmembers nofun
  | named name args => exact hmembers nofun
  | defined name args constraints newVars => exact hmembers nofun

/-- The antecedent becomes a literal; the consequent is imposed, or it becomes a literal too. -/
theorem adds_callImposeImplication (a b : Expr) :
    Adds (Expr.op .implies [a, b]).RegistersImposed
      (Deeper.callImpose limit self (.op .implies [a, b]) guards) := by
  refine Adds.congr (S := fun k => a.Registers k ∨ b.RegistersImposed k) ?_ fun k _ =>
    Expr.registersImposed_implies_iff.symm
  show Adds _ (if guards.isEmpty ∧ a.asBoolLiteral.isSome ∧ b.asBoolLiteral.isSome then _ else _)
  split
  · rename_i hliterals
    have hdirect : b.IsDirect := (isDirect_of_asBoolLiteral hliterals.2.2 fun _ => 0).1
    refine (adds_literalBy hself a).bind fun l => ?_
    exact ((adds_literalBy hself b).andThen fun _ => .build _ _).congr fun k _ =>
      (Expr.registersImposed_direct_iff hdirect).symm
  · exact (adds_literalBy hself a).bind fun l => hself.impose b (guards ++ [l])

theorem adds_callImpose (e : Expr) (guards : List Literal) :
    Adds e.RegistersImposed (Deeper.callImpose limit self e guards) := by
  have hall : ∀ es : List Expr, Adds (fun k => ∃ e ∈ es, e.RegistersImposed k)
      (es.forM fun e => self.impose e guards) := .forM fun e => hself.impose e guards
  cases e with
  | const c =>
    refine Adds.congr (S := fun _ => False) ?_ fun k _ => ?_
    · show Adds _ (if c = 0 then _ else _)
      split
      · exact .build _ _
      · exact .pure _
    · rw [Expr.registersImposed_direct_iff (e := .const c) trivial]
      exact (iff_false_intro (Expr.not_registers_of_leaf (e := .const c) nofun rfl)).symm
  | list items => exact (hall items).congr fun k _ => Expr.registersImposed_list_iff.symm
  | op o args =>
    have hliterals : (Expr.op o args).IsDirect → ∀ {f : List Literal → Translate Unit},
        (∀ ls, AddsNothing (f ls)) →
        Adds (Expr.op o args).RegistersImposed (args.mapM (literalBy self.lower) >>= f) :=
      fun hdirect f hf => ((adds_literals hself args).andThen hf).congr fun k _ =>
        ((Expr.registersImposed_direct_iff hdirect).trans
          (Expr.registers_iff (e := .op o args) nofun)).symm
    cases o with
    | and => exact (hall args).congr fun k _ => Expr.registersImposed_and_iff.symm
    | or => exact hliterals trivial fun ls => .build _ _
    | xor => exact hliterals trivial fun ls => .build _ _
    | implies =>
      rcases args with _ | ⟨a, _ | ⟨b, _ | ⟨c, rest⟩⟩⟩
      · exact adds_callImposeLiteral hself trivial
      · exact adds_callImposeLiteral hself trivial
      · exact adds_callImposeImplication hself a b
      · exact adds_callImposeLiteral hself trivial
    | _ => exact adds_callImposeLiteral hself trivial
  | compare c lhs rhs => exact adds_callImposeComparison hself c lhs rhs
  | global g => exact adds_callImposeGlobal hself g
  | var v => exact adds_callImposeLiteral hself trivial
  | complement v => exact adds_callImposeLiteral hself trivial
  | element array index => exact adds_callImposeLiteral hself trivial

end Calls

/-! ## Expressions and models -/

theorem adds_unrolled (limit calls : Nat) : AddsCalls (unrolled limit exhausted calls) := by
  -- what is at the bottom adds whatever it is said to, since it fails
  induction calls with
  | zero => exact ⟨fun _ => .throw _, fun _ _ => .throw _⟩
  | succ calls ih => exact ⟨adds_callLower ih, adds_callImpose ih⟩

theorem adds_lowerExpr (config : Config) (e : Expr) : Adds e.Registers (lowerExpr config e) := by
  intro t n t' hrun
  obtain ⟨k, hk⟩ := exists_calls_lower config t e
  rw [← hk k (Nat.le_refl k)] at hrun
  exact (adds_unrolled config.maxDecompositionDepth k).lower e hrun

theorem adds_imposeExpr (config : Config) (e : Expr) (guards : List Literal) :
    Adds e.RegistersImposed (imposeExpr config e guards) := by
  intro t u t' hrun
  obtain ⟨k, hk⟩ := exists_calls_impose config t e guards
  rw [← hk k (Nat.le_refl k)] at hrun
  exact (adds_unrolled config.maxDecompositionDepth k).impose e guards hrun

end Translate

/-- A root of the model mentions or registers the variable. -/
def Model.Registers (m : Model) (k : VarKey) : Prop :=
  (∃ e ∈ m.roots, e.Mentions k) ∨ (∃ c ∈ m.constraints, c.RegistersImposed k) ∨
    ∃ o ∈ m.objective, o.expr.Registers k

theorem Translate.adds_model (config : Config) (m : Model) :
    Adds m.Registers (Translate.model config m) := by
  have hregistered := Adds.registerAll m.vars
  have hconstraints := Adds.forM (fun c => adds_imposeExpr config c []) m.constraints
  unfold Translate.model
  refine (hregistered.bind fun _ => hconstraints.bind fun _ =>
    (?_ : Adds (fun k => ∃ o ∈ m.objective, o.expr.Registers k) _)).congr fun k _ => ?_
  · cases m.objective with
    | none => exact (Adds.pure ()).congr fun k _ => by simp
    | some o =>
      exact ((adds_lowerExpr config o.expr).andThen fun v => .build _ _).congr fun k _ => by simp
  rw [Model.Registers, ← Expr.mem_keysOf_varsOf]
  rfl

/-- Of the declared variables exactly those are registered that a root mentions or registers. -/
theorem Model.has_of_translate_iff {config : Config} {m : Model} {tr : Translation} {v : Var}
    (h : m.translate config = .ok tr) (hv : v.IsDeclared) :
    tr.layout.Has v ↔ m.Registers v.toVarKey := by
  obtain ⟨t, hrun, rfl⟩ := translate_eq_ok.1 h
  exact (Translate.adds_model config m hrun v hv).trans (or_iff_right Bool.false_ne_true)

end Linearization
