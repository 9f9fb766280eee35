import Linearization.Proofs.Translation.Contract
import Linearization.Translation.Basic

/-!
# Translations meet contracts

Lowering and imposing meet every contract for every expression, whether they succeed or not
(`meets_lowerExpr`, `meets_imposeExpr`), and so does the translation of a model (`finishes_model`).

The first use is the scope of variables: every draft that is reached by registering variables,
lowering and imposing, also by steps that fail half-way, is well-formed
(`Draft.Reachable.wellFormed`).
-/

namespace Linearization

namespace Translate

open Contract Linearization.Valuation

variable {C : Contract} {t : Draft} {e : Expr} {es : List Expr} {g : Global} {limit : Nat}
  {deeper : Option Deeper} {guards : List Literal}

/-! ## Constraints -/

/-- The step meets the contract wherever the expression is admitted. -/
def MeetsUnder (C : Contract) (f : Expr → List Literal → Translate Unit) (e : Expr) : Prop :=
  ∀ guards (t : Draft), C.Holds t → C.Admits t e → C.Guards guards t →
    C.Meets (fun _ _ => True) (f e guards) t

theorem meets_addClause {ls : List Literal} (h : C.Holds t) (hls : ∀ l ∈ ls, t.program.IsTruth l)
    (hg : C.Guards guards t) :
    C.Meets (fun _ _ => True) (build e (Lowering.addClause ls guards)) t :=
  .build h (Lowering.steady_addClause _ _)
    (fun hguarded => Lowering.faultless_addClause (fun l hl => (hls l hl).column_lt)
      (hg hguarded)) fun _ _ _ => trivial

theorem meets_imposePairs {c : Comparison} {pairs : List (Lowered × Lowered)} (h : C.Holds t)
    (hg : C.Guards guards t) (hpairs : ∀ pair ∈ pairs, IsOver pair.1 t ∧ IsOver pair.2 t) :
    C.Meets (fun _ _ => True) (imposePairs e c guards pairs) t := by
  induction pairs generalizing t with
  | nil => exact .pure h trivial
  | cons pair rest ih =>
    obtain ⟨l, r⟩ := pair
    rw [List.forall_mem_cons] at hpairs
    obtain ⟨⟨hl, hr⟩, hrest⟩ := hpairs
    refine (meets_affineOf h hl).bind fun a t₁ _ hg₁ h₁ ha => ?_
    refine (meets_affineOf h₁ (hr.mono hg₁.program)).bind fun b t₂ _ hg₂ h₂ hb => ?_
    have hgrows := hg₁.trans hg₂
    refine Meets.bind (Q := fun _ _ => True) (.build h₂ (Lowering.steady_enforce _ _)
      (fun hguarded => Lowering.faultless_enforce h₂.sound.program
        ⟨ha.mono hg₂.program.size_le, hb⟩ (hg.mono hgrows hguarded)) fun _ _ _ => trivial)
      fun _ t₃ _ hg₃ h₃ _ => ?_
    have hall := hgrows.trans hg₃
    exact ih h₃ (hg.mono hall) fun pair hmem =>
      ⟨(hrest pair hmem).1.mono hall.program, (hrest pair hmem).2.mono hall.program⟩

section Levels

variable (hlevel : ∀ level, deeper = some level → MeetsLevel C level)

include hlevel

theorem meets_imposeLiteral (e : Expr) : MeetsUnder C (imposeLiteral limit deeper) e :=
  fun _ _ h he hg => (meets_literal (meetsFor_lower hlevel _) h he).bind fun _ _ _ hg₁ h₁ hl =>
    meets_addClause h₁ (List.forall_mem_singleton.2 hl) (hg.mono hg₁)

theorem meets_imposeElement {array : List Expr} {index other : Expr} (h : C.Holds t)
    (he : C.Admits t (.element array index)) (ho : C.Admits t other) (hg : C.Guards guards t) :
    C.Meets (fun _ _ => True) (imposeElement limit deeper e array index other guards) t := by
  have hindex : C.Admits t index :=
    C.admits_child he (List.mem_append_right _ (List.mem_singleton_self index))
  have harray : ∀ d ∈ array, C.Admits t d := fun d hd =>
    C.admits_child he (List.mem_append_left _ hd)
  refine (meets_affine (meetsFor_lower hlevel _) h hindex).bind fun i t₁ _ hg₁ h₁ hi => ?_
  refine (meets_affines (fun d _ => meetsFor_lower hlevel d) h₁ fun d hd =>
    C.admits_mono (harray d hd) hg₁).bind fun items t₂ _ hg₂ h₂ hitems => ?_
  refine (meets_affine (meetsFor_lower hlevel _) h₂ (C.admits_mono ho (hg₁.trans hg₂))).bind
    fun target t₃ _ hg₃ h₃ htarget => ?_
  exact .build h₃ (Lowering.steady_enforceElement _ _ _ _)
    (fun hguarded => Lowering.faultless_enforceElement h₃.sound.program
      (hi.mono (hg₂.trans hg₃).program.size_le) htarget
      (fun item hmem => (hitems.below item hmem).mono hg₃.program.size_le)
      (hg.mono ((hg₁.trans hg₂).trans hg₃) hguarded)) fun _ _ _ => trivial

theorem meets_imposeComparison {c : Comparison} {lhs rhs : Expr} (h : C.Holds t)
    (he : C.Admits t (.compare c lhs rhs)) (hg : C.Guards guards t) :
    C.Meets (fun _ _ => True) (imposeComparison limit deeper c lhs rhs guards) t := by
  have hl : C.Admits t lhs := C.admits_child he List.mem_cons_self
  have hr : C.Admits t rhs :=
    C.admits_child he (List.mem_cons_of_mem _ (List.mem_singleton_self rhs))
  unfold imposeComparison
  split
  · exact meets_imposeElement hlevel h hl hr hg
  · exact meets_imposeElement hlevel h hr hl hg
  · refine (meetsFor_lower hlevel _ t h hl).bind fun left t₁ _ hg₁ h₁ hleft => ?_
    refine (meetsFor_lower hlevel _ t₁ h₁ (C.admits_mono hr hg₁)).bind
      fun right t₂ _ hg₂ h₂ hright => ?_
    cases hpairs : left.pairUp right with
    | none => exact .throw h₂ ⟨nofun, nofun, nofun⟩
    | some pairs =>
      refine meets_imposePairs h₂ (hg.mono (hg₁.trans hg₂)) fun pair hmem => ?_
      exact ⟨(hleft.mono hg₂.program).items _ (Lowered.mem_pairUp hpairs pair hmem).1,
        hright.items _ (Lowered.mem_pairUp hpairs pair hmem).2⟩

theorem meets_imposeDecomposition (h : C.Holds t) (he : C.Admits t (.global g))
    (hg : C.Guards guards t) :
    C.Meets (fun _ _ => True) (imposeDecomposition limit deeper g guards) t := by
  refine (meets_expand h he).bind fun pair t₁ _ hg₁ h₁ hpair => ?_
  obtain ⟨level, cs⟩ := pair
  obtain ⟨hdeeper, hmembers⟩ := hpair
  refine .nested (fun _ _ _ _ _ => trivial) (.forM (h₁.atDepth _ _) fun c hc t₂ hg₂ h₂ => ?_)
  have hgrows : t₁.Grows t₂ := ⟨hg₂.program, hg₂.layout⟩
  exact (hlevel level hdeeper).impose guards c t₂ h₂ (C.admits_mono (hmembers c hc) hgrows)
    (hg.mono (hg₁.trans hgrows))

theorem meets_imposeGlobal (h : C.Holds t) (he : C.Admits t (.global g))
    (hg : C.Guards guards t) :
    C.Meets (fun _ _ => True) (imposeGlobal limit deeper g guards) t := by
  have hlower : C.Meets (fun _ _ => True) (discard (lowerGlobal limit deeper g)) t := by
    show C.Meets _ (lowerGlobal limit deeper g >>= fun _ => pure ()) t
    exact (meets_lowerGlobal hlevel (fun e _ => meetsFor_lower hlevel e) h he).bind
      fun _ _ _ _ h₁ _ => .pure h₁ trivial
  unfold imposeGlobal
  split
  · refine (meets_affines (fun d _ => meetsFor_lower hlevel d) h fun d hd =>
      C.admits_child he hd).bind fun forms t₁ _ hg₁ h₁ hforms => ?_
    exact .build h₁ (Lowering.steady_enforceDistinct _ _)
      (fun hguarded => Lowering.faultless_enforceDistinct h₁.sound.program hforms.below
        (hg.mono hg₁ hguarded)) fun _ _ _ => trivial
  · exact hlower
  · exact hlower
  · exact hlower
  · exact meets_imposeDecomposition hlevel h he hg

omit hlevel in
theorem meets_imposeAll (ih : ∀ e ∈ es, MeetsUnder C (impose limit deeper) e) (h : C.Holds t)
    (hes : ∀ e ∈ es, C.Admits t e) (hg : C.Guards guards t) :
    C.Meets (fun _ _ => True) (imposeAll limit deeper es guards) t := by
  induction es generalizing t with
  | nil => exact .pure h trivial
  | cons e es ihes =>
    rw [List.forall_mem_cons] at ih hes
    exact (ih.1 guards t h hes.1 hg).bind fun _ t₁ _ hg₁ h₁ _ =>
      ihes ih.2 h₁ (fun d hd => C.admits_mono (hes.2 d hd) hg₁) (hg.mono hg₁)

/-- An implication: a clause where both sides are literals and there is no guard, and otherwise the
consequent under one more guard. -/
theorem meets_imposeImplication {a b : Expr} (ihb : MeetsUnder C (impose limit deeper) b)
    (h : C.Holds t) (ha : C.Admits t a) (hb : C.Admits t b) (hg : C.Guards guards t) :
    C.Meets (fun _ _ => True) (impose limit deeper (.op .implies [a, b]) guards) t := by
  have hantecedent : C.Meets (fun l t' => t'.program.IsTruth l) (literal limit deeper a) t :=
    meets_literal (meetsFor_lower hlevel _) h ha
  show C.Meets _ (if guards.isEmpty ∧ a.asBoolLiteral.isSome ∧ b.asBoolLiteral.isSome then _
    else _) t
  split
  · refine hantecedent.bind fun l t₁ _ hg₁ h₁ hl => ?_
    refine (meets_literal (meetsFor_lower hlevel _) h₁ (C.admits_mono hb hg₁)).bind
      fun k t₂ _ hg₂ h₂ hk => ?_
    have hboth : ∀ n ∈ [l.negate, k], t₂.program.IsTruth n :=
      List.forall_mem_cons.2 ⟨Ilp.isTruth_negate.2 (hl.mono hg₂.program),
        List.forall_mem_singleton.2 hk⟩
    exact meets_addClause h₂ hboth (.nil t₂)
  · exact hantecedent.bind fun l t₁ _ hg₁ h₁ hl =>
      ihb _ t₁ h₁ (C.admits_mono hb hg₁) ((hg.mono hg₁).append hl)

theorem meetsUnder_impose (e : Expr) : MeetsUnder C (impose limit deeper) e := by
  induction e using Expr.induction with
  | const c =>
    intro guards t h _ hg
    show C.Meets _ (if c = 0 then _ else _) t
    split
    · exact meets_addClause h (List.forall_mem_nil _) hg
    · exact .pure h trivial
  | var v => exact meets_imposeLiteral hlevel (.var v)
  | complement v => exact meets_imposeLiteral hlevel (.complement v)
  | list es ih =>
    exact fun guards t h he hg =>
      meets_imposeAll ih h (fun e hmem => C.admits_child he hmem) hg
  | op o args ih =>
    intro guards t h he hg
    have hliteral : C.Meets _ (imposeLiteral limit deeper (.op o args) guards) t :=
      meets_imposeLiteral hlevel (.op o args) guards t h he hg
    have hargs : ∀ e ∈ args, C.Admits t e := fun e hmem => C.admits_child he hmem
    have hliterals : C.Meets (AreLiterals args) (literals limit deeper args) t :=
      meets_literals (fun e _ => meetsFor_lower hlevel e) h hargs
    cases o with
    | and => exact meets_imposeAll ih h hargs hg
    | or =>
      exact hliterals.bind fun ls t₁ _ hg₁ h₁ hls => meets_addClause h₁ hls.truth (hg.mono hg₁)
    | xor =>
      exact hliterals.bind fun ls t₁ _ hg₁ h₁ hls => .build h₁ (Lowering.steady_addParity _ _)
        (fun hguarded => Lowering.faultless_addParity h₁.sound.program
          (fun l hl => (hls.truth l hl).column_lt) (hg.mono hg₁ hguarded)) fun _ _ _ => trivial
    | implies =>
      rcases args with _ | ⟨a, _ | ⟨b, _ | ⟨c, rest⟩⟩⟩
      · exact hliteral
      · exact hliteral
      · rw [List.forall_mem_cons, List.forall_mem_singleton] at ih hargs
        exact meets_imposeImplication hlevel ih.2 h hargs.1 hargs.2 hg
      · exact hliteral
    | _ => exact hliteral
  | compare c lhs rhs _ _ => exact fun guards t h he hg => meets_imposeComparison hlevel h he hg
  | element array index _ _ => exact meets_imposeLiteral hlevel (.element array index)
  | global g _ _ => exact fun guards t h he hg => meets_imposeGlobal hlevel h he hg

end Levels

/-! ## All levels -/

theorem meetsLevel_within (C : Contract) (limit levels : Nat) :
    MeetsLevel C ⟨lowerWithin limit levels, imposeWithin limit levels⟩ := by
  have hstep : ∀ deeper : Option Deeper, (∀ level, deeper = some level → MeetsLevel C level) →
      MeetsLevel C ⟨lower limit deeper, impose limit deeper⟩ := fun _ hlevel =>
    ⟨meetsFor_lower hlevel, fun guards e => meetsUnder_impose hlevel e guards⟩
  rw [lowerWithin_eq, imposeWithin_eq]
  exact hstep _ (forall_below hstep levels)

theorem meets_lowerExpr (config : Config) (h : C.Holds t) (he : C.Admits t e) :
    C.Meets IsOver (lowerExpr config e) t :=
  ((meetsLevel_within C config.maxDecompositionDepth _).lower e t h he).congr rfl

theorem meets_imposeExpr (config : Config) (h : C.Holds t) (he : C.Admits t e)
    (hg : C.Guards guards t) : C.Meets (fun _ _ => True) (imposeExpr config e guards) t :=
  ((meetsLevel_within C config.maxDecompositionDepth _).impose guards e t h he hg).congr rfl

/-! ## Models -/

/-- Like `Meets`, but for a step that may install an objective: it is a form over the program. -/
structure Finishes (C : Contract) (m : Translate Unit) (t : Draft) : Prop where
  layout : t.layout.Grows (stateAfter m t).layout
  holds : C.Holds (stateAfter m t)
  explains : FailsOnly (C.Explains t.program.enumerationLimit) m t
  objective : ∀ direction form, (stateAfter m t).program.objective = some (direction, form) →
    IsForm form (stateAfter m t)

/-- The last part of a step follows a part that leaves the objective alone. -/
theorem Finishes.bind {α : Type} {Q : α → Draft → Prop} {m : Translate α} {f : α → Translate Unit}
    (hnone : t.program.objective = none) (hm : C.Meets Q m t)
    (hf : ∀ a t', t'.program.objective = none → t.Grows t' → C.Holds t' → Q a t' →
      Finishes C (f a) t') :
    Finishes C (m >>= f) t := by
  cases hs : m t with
  | ok a t' =>
    have hgrows : t.Grows t' := hm.grows_of_ok hs
    have hlast : Finishes C (f a) t' := hf a t' (hgrows.program.objective.trans hnone) hgrows
      (hm.holds_of_ok hs) (hm.returns a t' hs)
    refine ⟨?_, ?_, fun e s he => ?_, ?_⟩
    · rw [stateAfter_bind_of_ok hs]
      exact hgrows.layout.trans hlast.layout
    · rw [stateAfter_bind_of_ok hs]
      exact hlast.holds
    · rw [bind_of_ok hs] at he
      rw [← hgrows.program.enumerationLimit]
      exact hlast.explains e s he
    · rw [stateAfter_bind_of_ok hs]
      exact hlast.objective
  | error error t' =>
    refine ⟨?_, ?_, fun e s he => ?_, fun direction form ho => ?_⟩
    · rw [stateAfter_bind_of_error hs]
      exact hm.grows.layout
    · rw [stateAfter_bind_of_error hs]
      exact hm.holds
    · rw [bind_of_error hs] at he
      cases he
      exact hm.explains _ _ hs
    · rw [stateAfter_bind_of_error hs, hm.grows.program.objective, hnone] at ho
      cases ho

theorem installObjective_eq (config : Config) (o : Objective) :
    installObjective config o = (do
      let value ← lowerExpr config o.expr
      let form ← build o.expr (Lowering.affineOf value)
      modify fun t => { t with program := t.program.withObjective (some (o.direction, form)) }) := by
  refine congrArg (lowerExpr config o.expr >>= ·) (funext fun value => funext fun t => ?_)
  show build o.expr (Lowering.affineOf value >>= _) t = (build o.expr _ >>= _) t
  cases h : Lowering.affineOf value t.program with
  | ok form q =>
    have hbuild : build o.expr (Lowering.affineOf value) t = .ok form { t with program := q } :=
      build_eq_ok.2 ⟨q, h, rfl⟩
    rw [bind_of_ok hbuild]
    unfold build
    rw [bind_of_ok h]
    rfl
  | error error q =>
    have hbuild : build o.expr (Lowering.affineOf value) t =
        .error (.ofLowering o.expr error) { t with program := q } := by
      unfold build
      rw [h]
    rw [bind_of_error hbuild]
    unfold build
    rw [bind_of_error h]

theorem finishes_installObjective {config : Config} {o : Objective} (h : C.Holds t)
    (hnone : t.program.objective = none) (ho : C.Admits t o.expr) :
    Finishes C (installObjective config o) t := by
  rw [installObjective_eq]
  refine .bind hnone (meets_lowerExpr config h ho) fun value t₁ hnone₁ _ h₁ hvalue => ?_
  refine .bind hnone₁ (meets_affineOf h₁ hvalue) fun form t₂ _ _ h₂ hform => ?_
  refine ⟨.refl _, ⟨?_, ?_⟩, .of_ok rfl, fun direction form' heq => ?_⟩
  · exact h₂.sound.of_program h₂.sound.program.withObjective rfl fun _ _ hc => hc
  · exact C.keeps_of h₂.keeps (Nat.le_refl _) rfl rfl
  · cases heq
    exact hform

/-- The draft in which the variables of the model are registered. -/
abbrev registered (limit : Nat) (m : Model) : Draft := (Draft.start limit).withVars m.vars

theorem has_registered {m : Model} {v : Var} :
    (registered limit m).layout.Has v ↔ v.toVarKey ∈ keysOf m.vars :=
  Draft.has_withVars.trans (or_iff_left Bool.false_ne_true)

/-- The translation of a model meets a contract under which its roots are admitted once its
variables are registered. -/
theorem finishes_model {config : Config} {m : Model} (hkeeps : C.Keeps (registered limit m))
    (hroots : ∀ e ∈ m.roots, C.Admits (registered limit m) e) :
    Finishes C (model config m) (.start limit) := by
  have hregistered : C.Holds (registered limit m) := ⟨(Draft.Sound.start limit).withVars _, hkeeps⟩
  have hregister : C.Meets (fun _ t' => t' = registered limit m) (registerAll m.vars)
      (.start limit) :=
    .of_ok (registerAll_run _ _) (Draft.grows_withVars _ _) hregistered rfl
  refine .bind rfl hregister fun _ t₁ hnone₁ _ h₁ heq => ?_
  subst heq
  have hconstraints : C.Meets (fun _ _ => True)
      (m.constraints.forM fun c => imposeExpr config c []) (registered limit m) :=
    .forM h₁ fun c hc t' hgrows h' => meets_imposeExpr config h'
      (C.admits_mono (hroots c (List.mem_append_left _ hc)) hgrows) (.nil t')
  refine .bind hnone₁ hconstraints fun _ t₂ hnone₂ hgrows h₂ _ => ?_
  cases ho : m.objective with
  | none =>
    refine ⟨.refl _, h₂, .pure _ _, fun direction form heq => ?_⟩
    rw [show (stateAfter (pure ()) t₂ : Draft) = t₂ from rfl, hnone₂] at heq
    cases heq
  | some o =>
    have hroot : o.expr ∈ m.roots := List.mem_append_right _ (by simp [ho])
    exact finishes_installObjective h₂ hnone₂ (C.admits_mono (hroots o.expr hroot) hgrows)

end Translate

namespace Model

variable {config : Config} {m : Model} {tr : Translation} {e : TranslationError}

theorem translate_eq_ok : m.translate config = .ok tr ↔
    ∃ t, Translate.model config m (.start config.maxDomainEnumeration) = .ok () t ∧
      tr = ⟨t.program, t.layout, m.vars.length⟩ := by
  unfold translate
  cases Translate.model config m (.start config.maxDomainEnumeration) with
  | ok u t => simp [eq_comm]
  | error e t => simp

theorem translate_eq_error : m.translate config = .error e ↔
    ∃ t, Translate.model config m (.start config.maxDomainEnumeration) = .error e t := by
  unfold translate
  cases Translate.model config m (.start config.maxDomainEnumeration) with
  | ok u t => simp
  | error e t => simp

end Model

/-- Variables that decompositions introduce are numbered for the columns that they get, and occur
only afterwards. -/
def Contract.scopes : Contract where
  Keeps t := ∀ v, t.layout.Has v → v.InScope t.program.columns.size
  Admits t e := e.AllVars (Var.InScope t.program.columns.size)
  guarded := False
  keeps_of h hle hlayout _ v hv := by
    rw [hlayout] at hv
    exact (h v hv).mono hle
  admits_mono h hg := h.mono fun _ hv => hv.mono hg.program.size_le
  admits_child h hd := h.child hd
  admits_all h := Expr.allVars_all h
  decompose hsound hkeeps hg hd := by
    have hwf : Draft.WellFormed _ := ⟨hsound.program, hsound.images, hkeeps⟩
    obtain ⟨hmembers, horder⟩ := Translate.inOrder_expand hwf hg hd
    refine ⟨(hwf.withVars horder).inScope, fun c hc => (hmembers c hc).mono fun v hv => hv.mono ?_⟩
    rw [Draft.withVars_append]
    exact (Draft.grows_withVars _ _).program.size_le

namespace Draft

/-- A draft that is reached from the empty one by registering variables and by lowering and imposing
expressions, each of which may succeed or fail, at any depth of decomposition. A variable that a
decomposition introduces is registered for the column that it is numbered for, and occurs in
expressions only afterwards. -/
inductive Reachable (config : Config) : Draft → Prop where
  | start : Reachable config (start config.maxDomainEnumeration)
  | register {t : Draft} (h : Reachable config t) {v : Var}
    (hv : v.InScope (t.program.columns.size + 1)) :
    Reachable config (stateAfter (Translate.register v) t)
  | lower {t : Draft} (h : Reachable config t) {e : Expr}
    (he : e.AllVars (Var.InScope t.program.columns.size)) :
    Reachable config (stateAfter (Translate.lowerExpr config e) t)
  | impose {t : Draft} (h : Reachable config t) {e : Expr}
    (he : e.AllVars (Var.InScope t.program.columns.size)) (guards : List Literal) :
    Reachable config (stateAfter (Translate.imposeExpr config e guards) t)
  | atDepth {t : Draft} (h : Reachable config t) (depth deepest : Nat) :
    Reachable config { t with depth, deepest }

/-- A draft is well-formed exactly if it is sound and its variables are in scope. -/
theorem wellFormed_iff {t : Draft} : t.WellFormed ↔ Contract.scopes.Holds t :=
  ⟨fun h => ⟨h.sound, h.inScope⟩, fun h => ⟨h.sound.program, h.sound.images, h.keeps⟩⟩

theorem Reachable.wellFormed {config : Config} {t : Draft} (h : t.Reachable config) :
    t.WellFormed := by
  induction h with
  | start => exact .start _
  | @register t _ v hv ih =>
    obtain ⟨image, hrun⟩ := Translate.register_run v t
    rw [stateAfter_of_ok hrun]
    exact ih.withVar hv
  | lower _ he ih =>
    exact wellFormed_iff.2 (Translate.meets_lowerExpr config (wellFormed_iff.1 ih) he).holds
  | impose _ he guards ih =>
    exact wellFormed_iff.2 (Translate.meets_imposeExpr config (wellFormed_iff.1 ih) he nofun).holds
  | atDepth _ depth deepest ih => exact ih.atDepth depth deepest

end Draft

end Linearization
