import Linearization.Model
import Linearization.Proofs.Ilp.ArithmeticFaults
import Linearization.Proofs.Translation.Value

/-!
# Contracts of a translation

Some properties of a translation follow from the recursion over expressions and decompositions
alone, whatever the expressions contain and whether it succeeds or fails half-way: that it keeps an
invariant, that it only ever looks at expressions of a certain kind, and why it fails. A `Contract`
names the invariant and the kind of expressions, with what the decomposition of a global has to do
with them. `C.Meets Q m t` says that the step `m` meets the contract `C` in the draft `t` and that
what it returns is as `Q` says.

Every translation meets every contract. This module is about values (`Contract.meetsFor_lower`).
-/

namespace Linearization

/-- The reason is the shape of the expression: the validation of models looks for it. -/
def Reason.IsShape : Reason → Prop
  | .complementOfInteger | .arity _ _ _ | .emptyArray | .noArguments => True
  | _ => False

/-- The expression is the variable or its complement. -/
def Expr.IsVar (e : Expr) (v : Var) : Prop := e = .var v ∨ e = .complement v

/-- An invariant of drafts, and the expressions that may be translated in a draft. -/
structure Contract where
  /-- Besides the soundness of the draft. -/
  Keeps : Draft → Prop
  Admits : Draft → Expr → Prop
  /-- The guards stand on columns of the program. -/
  guarded : Prop
  keeps_of : ∀ {t t' : Draft}, Keeps t → t.program.columns.size ≤ t'.program.columns.size →
    t'.layout = t.layout → t'.decomposed = t.decomposed → Keeps t'
  admits_mono : ∀ {t t' : Draft} {e : Expr}, Admits t e → t.Grows t' → Admits t' e
  admits_child : ∀ {t : Draft} {e d : Expr}, Admits t e → d ∈ e.children → Admits t d
  admits_all : ∀ {t : Draft} {es : List Expr}, (∀ e ∈ es, Admits t e) → Admits t (.all es)
  /-- A global that is admitted may be decomposed, and the members are admitted then. -/
  decompose : ∀ {t : Draft} {g : Global} {d : Decomposition}, t.Sound → Keeps t →
    Admits t (.global g) → g.decompose t.program.columns.size = some d →
      Keeps ((t.withVars (d.newVars ++ varsOf d.constraints)).logged g) ∧
        ∀ c ∈ d.constraints, Admits ((t.withVars (d.newVars ++ varsOf d.constraints)).logged g) c

namespace Contract

/-- The draft is sound, and what the contract keeps holds of it. -/
structure Holds (C : Contract) (t : Draft) : Prop where
  sound : t.Sound
  keeps : C.Keeps t

/-- A failure for its shape is that of an expression that was admitted, and a variable that is not
registered stood in an expression that was admitted. If the guards stand on columns, the only fault
is an overlong list. -/
structure Explains (C : Contract) (limit : Nat) (error : TranslationError) : Prop where
  shape : ∀ e reason, error = .untranslatable e reason → reason.IsShape →
    e.problem?.isSome ∧ ∃ t, C.Admits t e
  unregistered : ∀ name, error = .unregistered name →
    ∃ t v e, v.name = name ∧ e.IsVar v ∧ C.Admits t e ∧ ¬ t.layout.Has v
  fault : C.guarded → ∀ f, error = .fault f → f.IsOverlong limit

/-- Whatever the outcome, the draft has grown and the contract still holds; a failure is explained,
and a result is as `Q` says. -/
structure Meets {α : Type} (C : Contract) (Q : α → Draft → Prop) (m : Translate α) (t : Draft) :
    Prop where
  grows : t.Grows (stateAfter m t)
  holds : C.Holds (stateAfter m t)
  explains : FailsOnly (C.Explains t.program.enumerationLimit) m t
  returns : ∀ a t', m t = .ok a t' → Q a t'

/-- If it has to, every guard stands on a column of the program. -/
def Guards (C : Contract) (guards : List Literal) (t : Draft) : Prop :=
  C.guarded → Literal.AllBelow t.program.columns.size guards

variable {C : Contract} {α β : Type} {Q : α → Draft → Prop} {R : β → Draft → Prop} {t t' : Draft}
  {a : α} {m : Translate α} {e : Expr} {reason : Reason} {limit : Nat} {guards : List Literal}
  {l : Literal}

theorem Guards.mono (h : C.Guards guards t) (hg : t.Grows t') : C.Guards guards t' :=
  fun hguarded => (h hguarded).mono hg.program.size_le

theorem Guards.append (h : C.Guards guards t) (hl : t.program.IsTruth l) :
    C.Guards (guards ++ [l]) t :=
  fun hguarded => (h hguarded).append (.singleton hl.column_lt)

theorem Guards.nil (t : Draft) : C.Guards [] t := fun _ => .nil _

theorem Holds.of_program (h : C.Holds t) {q : Ilp} (hg : t.program.Grows q) (hq : q.WellFormed) :
    C.Holds { t with program := q } :=
  ⟨h.sound.of_program hq rfl fun _ _ hc => hg.column hc, C.keeps_of h.keeps hg.size_le rfl rfl⟩

theorem Holds.atDepth (h : C.Holds t) (depth deepest : Nat) :
    C.Holds { t with depth, deepest } :=
  ⟨h.sound.atDepth depth deepest, C.keeps_of h.keeps (Nat.le_refl _) rfl rfl⟩

/-! ## Explanations -/

namespace Explains

theorem untranslatable (h : ¬ reason.IsShape) : C.Explains limit (.untranslatable e reason) where
  shape e' reason' heq hshape := by
    cases heq
    exact absurd hshape h
  unregistered := nofun
  fault := nofun

theorem problem (he : C.Admits t e) (h : e.problem?.isSome) :
    C.Explains limit (.untranslatable e reason) where
  shape e' reason' heq _ := by
    cases heq
    exact ⟨h, t, he⟩
  unregistered := nofun
  fault := nofun

theorem ofUnregistered {v : Var} (he : e.IsVar v) (hadmits : C.Admits t e)
    (hv : ¬ t.layout.Has v) : C.Explains limit (.unregistered v.name) where
  shape := nofun
  unregistered name heq := by
    cases heq
    exact ⟨t, v, e, rfl, he, hadmits, hv⟩
  fault := nofun

theorem ofLowering {error : LoweringError} (h : C.guarded → error.IsRegular limit) :
    C.Explains limit (.ofLowering e error) where
  shape e' reason' heq hshape := by
    cases error with
    | fault cause => cases heq
    | _ =>
      cases heq
      exact hshape.elim
  unregistered name heq := by cases error <;> cases heq
  fault hguarded f heq := by
    cases error with
    | fault cause =>
      cases heq
      exact h hguarded _ rfl
    | _ => cases heq

end Explains

/-! ## Steps -/

namespace Meets

theorem of_ok (h : m t = .ok a t') (hg : t.Grows t') (hholds : C.Holds t') (ha : Q a t') :
    C.Meets Q m t where
  grows := by rwa [stateAfter_of_ok h]
  holds := by rwa [stateAfter_of_ok h]
  explains := .of_ok h
  returns b s hb := by
    rw [h] at hb
    cases hb
    exact ha

theorem pure (h : C.Holds t) (ha : Q a t) : C.Meets Q (Pure.pure a) t := of_ok rfl (.refl t) h ha

theorem throw {error : TranslationError} (h : C.Holds t)
    (he : C.Explains t.program.enumerationLimit error) :
    C.Meets Q (MonadExcept.throw error : Translate α) t :=
  ⟨.refl t, h, .throw he t, nofun⟩

theorem grows_of_ok (hm : C.Meets Q m t) (h : m t = .ok a t') : t.Grows t' := by
  have hgrows := hm.grows
  rwa [stateAfter_of_ok h] at hgrows

theorem holds_of_ok (hm : C.Meets Q m t) (h : m t = .ok a t') : C.Holds t' := by
  have hholds := hm.holds
  rwa [stateAfter_of_ok h] at hholds

/-- The rest of a step starts in a draft that has grown from this one. -/
theorem bind {f : α → Translate β} (hm : C.Meets Q m t)
    (hf : ∀ a t', m t = .ok a t' → t.Grows t' → C.Holds t' → Q a t' → C.Meets R (f a) t') :
    C.Meets R (m >>= f) t := by
  cases hs : m t with
  | ok a t' =>
    have hgrows : t.Grows t' := hm.grows_of_ok hs
    have hnext : C.Meets R (f a) t' :=
      hf a t' hs hgrows (hm.holds_of_ok hs) (hm.returns a t' hs)
    refine ⟨?_, ?_, fun e s h => ?_, fun b s h => ?_⟩
    · rw [stateAfter_bind_of_ok hs]
      exact hgrows.trans hnext.grows
    · rw [stateAfter_bind_of_ok hs]
      exact hnext.holds
    · rw [bind_of_ok hs] at h
      rw [← hgrows.program.enumerationLimit]
      exact hnext.explains e s h
    · rw [bind_of_ok hs] at h
      exact hnext.returns b s h
  | error error t' =>
    refine ⟨?_, ?_, fun e s h => ?_, fun b s h => ?_⟩
    · rw [stateAfter_bind_of_error hs]
      exact hm.grows
    · rw [stateAfter_bind_of_error hs]
      exact hm.holds
    · rw [bind_of_error hs] at h
      cases h
      exact hm.explains _ _ hs
    · rw [bind_of_error hs] at h
      cases h

/-- Only what a step does in this draft matters. -/
theorem congr {m' : Translate α} (hm : C.Meets Q m' t) (h : m t = m' t) : C.Meets Q m t where
  grows := by
    unfold stateAfter
    rw [h]
    exact hm.grows
  holds := by
    unfold stateAfter
    rw [h]
    exact hm.holds
  explains e s he := hm.explains e s (h ▸ he)
  returns a s ha := hm.returns a s (h ▸ ha)

theorem get {f : Draft → Translate α} (hf : C.Meets Q (f t) t) :
    C.Meets Q (MonadState.get >>= f) t := hf.congr rfl

theorem returning {Q' : α → Draft → Prop} (hm : C.Meets Q m t)
    (h : ∀ a t', m t = .ok a t' → Q' a t') : C.Meets Q' m t :=
  ⟨hm.grows, hm.holds, hm.explains, h⟩

theorem build {action : Lowering α} (h : C.Holds t) (hs : Lowering.Steady action)
    (hf : C.guarded → Lowering.Faultless action t.program)
    (hq : ∀ a q, action t.program = .ok a q → Q a { t with program := q }) :
    C.Meets Q (Translate.build e action) t := by
  have hsteady : t.program.Grows (stateAfter action t.program) ∧
      (stateAfter action t.program).WellFormed := hs t.program h.sound.program
  cases hrun : action t.program with
  | ok a q =>
    rw [stateAfter_of_ok hrun] at hsteady
    have hbuild : Translate.build e action t = .ok a { t with program := q } :=
      Translate.build_eq_ok.2 ⟨q, hrun, rfl⟩
    exact .of_ok hbuild ⟨hsteady.1, .refl _⟩ (h.of_program hsteady.1 hsteady.2) (hq a q hrun)
  | error error q =>
    have hbuild : Translate.build e action t =
        .error (.ofLowering e error) { t with program := q } := by
      unfold Translate.build
      rw [hrun]
    have hafter : stateAfter (Translate.build e action) t = { t with program := q } := by
      unfold stateAfter
      rw [hbuild]
    have hgrows : t.program.Grows q ∧ q.WellFormed := by
      unfold stateAfter at hsteady
      rwa [hrun] at hsteady
    refine ⟨?_, ?_, fun e' s h' => ?_, fun b s h' => ?_⟩
    · rw [hafter]
      exact ⟨hgrows.1, .refl _⟩
    · rw [hafter]
      exact h.of_program hgrows.1 hgrows.2
    · rw [hbuild] at h'
      cases h'
      exact .ofLowering fun hguarded => hf hguarded error q hrun
    · rw [hbuild] at h'
      cases h'

/-- The depth has no part in any contract. -/
theorem nested (hq : ∀ a t depth deepest, Q a t → Q a { t with depth, deepest })
    (hm : C.Meets Q m { t with depth := t.depth + 1, deepest := max t.deepest (t.depth + 1) }) :
    C.Meets Q (Translate.nested m) t := by
  obtain ⟨hgrows, hholds, hexplains, hreturns⟩ := hm
  cases hrun : m { t with depth := t.depth + 1, deepest := max t.deepest (t.depth + 1) } with
  | ok a s =>
    rw [stateAfter_of_ok hrun] at hgrows hholds
    have hnested : Translate.nested m t = .ok a { s with depth := s.depth - 1 } :=
      Translate.nested_of_ok hrun
    exact .of_ok hnested ⟨hgrows.program, hgrows.layout⟩ (hholds.atDepth _ _)
      (hq a s _ _ (hreturns a s hrun))
  | error error s =>
    have hnested : Translate.nested m t = .error error { s with depth := s.depth - 1 } :=
      Translate.nested_of_error hrun
    unfold stateAfter at hgrows hholds
    rw [hrun] at hgrows hholds
    refine ⟨?_, ?_, fun e s h => ?_, fun b s h => ?_⟩
    · unfold stateAfter
      rw [hnested]
      exact ⟨hgrows.program, hgrows.layout⟩
    · unfold stateAfter
      rw [hnested]
      exact hholds.atDepth _ _
    · rw [hnested] at h
      cases h
      exact hexplains _ _ hrun
    · rw [hnested] at h
      cases h

theorem forM {f : α → Translate PUnit} {as : List α} (h : C.Holds t)
    (hf : ∀ a ∈ as, ∀ t', t.Grows t' → C.Holds t' → C.Meets (fun _ _ => True) (f a) t') :
    C.Meets (fun _ _ => True) (as.forM f) t := by
  induction as generalizing t with
  | nil => exact .pure h trivial
  | cons a as ih =>
    rw [List.forall_mem_cons] at hf
    rw [List.forM_eq_forM, List.forM_cons]
    refine (hf.1 t (.refl t) h).bind fun _ t' _ hgrows h' _ => ih h' fun b hb t'' hgrows' => ?_
    exact hf.2 b hb t'' (hgrows.trans hgrows')

end Meets

end Contract

namespace Translate

open Contract

variable {C : Contract} {t : Draft} {e : Expr} {es : List Expr} {g : Global} {limit : Nat}
  {deeper : Option Deeper} {v : Lowered} {forms items : List Affine} {ls : List Literal}
  {index : Affine} {o : Operator} {p : Ilp}

/-- The value only uses the program of the draft. -/
abbrev IsOver (v : Lowered) (t : Draft) : Prop := v.Over t.program

/-- The form only uses columns of the draft. -/
abbrev IsForm (e : Affine) (t : Draft) : Prop := e.Below t.program.columns.size

/-- One form for every expression. -/
structure AreForms (es : List Expr) (forms : List Affine) (t : Draft) : Prop where
  length : forms.length = es.length
  below : ∀ form ∈ forms, IsForm form t

/-- One literal for every expression. -/
structure AreLiterals (es : List Expr) (ls : List Literal) (t : Draft) : Prop where
  length : ls.length = es.length
  truth : ∀ l ∈ ls, t.program.IsTruth l

/-! ## Operators -/

theorem meets_checkArity (h : C.Holds t) (he : C.Admits t (.op o es)) :
    C.Meets (fun _ _ => ∀ k, o.arity = some k → es.length = k) (checkArity o es) t := by
  unfold checkArity
  cases harity : o.arity with
  | none => exact .pure h nofun
  | some expected =>
    dsimp only
    split
    · rename_i hlength
      refine .pure h fun k hk => ?_
      cases hk
      exact hlength
    · rename_i hlength
      refine .throw h (.problem he ?_)
      simp [Expr.problem?, harity, hlength]

theorem steady_connective (o : Operator) (ls : List Literal) :
    Lowering.Steady (connective o ls) := by
  unfold connective
  split
  · exact Lowering.steady_conjunction _
  · exact Lowering.steady_disjunction _
  · exact Lowering.steady_disjunction _
  · exact Keeps.throw _

theorem faultless_connective (hp : p.WellFormed) (ho : o.IsConnective)
    (harity : o = .implies → ls.length = 2) (hls : ∀ l ∈ ls, p.IsTruth l) :
    Lowering.Faultless (connective o ls) p := by
  have hbelow : Literal.AllBelow p.columns.size ls := fun l hl => (hls l hl).column_lt
  rcases ho with rfl | rfl | rfl
  · exact Lowering.faultless_conjunction hp hbelow
  · exact Lowering.faultless_disjunction hp hbelow
  · obtain ⟨a, b, rfl⟩ := List.length_eq_two.1 (harity rfl)
    obtain ⟨ha, hb⟩ := List.forall_mem_cons.1 hbelow
    have hboth : Literal.AllBelow p.columns.size [a.negate, b] := .cons ha hb
    exact Lowering.faultless_disjunction hp hboth

theorem meets_connective (h : C.Holds t) (ho : o.IsConnective)
    (harity : o = .implies → es.length = 2) (hls : AreLiterals es ls t) :
    C.Meets (fun l t' => t'.program.IsTruth l) (build e (connective o ls)) t :=
  have harity' : o = .implies → ls.length = 2 := fun heq => hls.length.trans (harity heq)
  .build h (steady_connective o ls)
    (fun _ => faultless_connective h.sound.program ho harity' hls.truth)
    fun _ _ hrun => (reifies_of_connective h.sound.program ho harity' hls.truth hrun).truth

theorem steady_foldlM_plus (forms : List Affine) :
    Lowering.Steady (Lowering.ofExcept (forms.foldlM Affine.plus (.const 0))) :=
  Lowering.steady_liftM _

theorem onlyOverflows_foldlM_plus (forms : List Affine) :
    OnlyOverflows (forms.foldlM Affine.plus (.const 0)) := .foldlM fun _ _ _ => .plus _ _

theorem meets_arithmetic {args : List Expr} (h : C.Holds t) (ho : o.IsArithmetic)
    (harity : ∀ k, o.arity = some k → args.length = k) (hforms : AreForms args forms t) :
    C.Meets IsForm (arithmetic o args forms) t := by
  have hp : t.program.WellFormed := h.sound.program
  have hlength : ∀ k, o.arity = some k → forms.length = k := fun k hk =>
    hforms.length.trans (harity k hk)
  have hone : o.arity = some 1 → ∃ a, forms = [a] := fun hk =>
    List.length_eq_one_iff.1 (hlength 1 hk)
  have htwo : o.arity = some 2 → ∃ a b, forms = [a, b] := fun hk =>
    List.length_eq_two.1 (hlength 2 hk)
  have hbelow : ∀ form ∈ forms, form.Below t.program.columns.size := hforms.below
  refine Meets.returning (Q := fun _ _ => True) ?_ fun c t' hrun =>
    (defines_arithmetic hp ho hlength hbelow hrun).1
  rcases ho with rfl | rfl | rfl | rfl | rfl | rfl | rfl | rfl
  · obtain ⟨a, rfl⟩ := hone rfl
    exact .build h (Lowering.steady_liftM _) (fun _ => .liftM (.scale a _)) fun _ _ _ => trivial
  · obtain ⟨a, rfl⟩ := hone rfl
    rw [List.forall_mem_singleton] at hbelow
    exact .build h (Lowering.steady_absolute a)
      (fun _ => Lowering.faultless_absolute hp hbelow) fun _ _ _ => trivial
  · obtain ⟨a, b, rfl⟩ := htwo rfl
    exact .build h (Lowering.steady_liftM _) (fun _ => .liftM (.minus a b)) fun _ _ _ => trivial
  · obtain ⟨a, b, rfl⟩ := htwo rfl
    rw [List.forall_mem_cons, List.forall_mem_singleton] at hbelow
    exact .build h (Lowering.steady_product a b)
      (fun _ => Lowering.faultless_product hp hbelow.1 hbelow.2) fun _ _ _ => trivial
  · obtain ⟨a, b, rfl⟩ := htwo rfl
    rw [List.forall_mem_cons, List.forall_mem_singleton] at hbelow
    exact .build h (Lowering.steady_quotient a b)
      (fun _ => Lowering.faultless_quotient hp hbelow.1 hbelow.2) fun _ _ _ => trivial
  · obtain ⟨a, b, rfl⟩ := htwo rfl
    rw [List.forall_mem_cons, List.forall_mem_singleton] at hbelow
    exact .build h (Lowering.steady_remainder a b)
      (fun _ => Lowering.faultless_remainder hp hbelow.1 hbelow.2) fun _ _ _ => trivial
  · obtain ⟨a, b, rfl⟩ := htwo rfl
    rw [List.forall_mem_cons, List.forall_mem_singleton] at hbelow
    dsimp only [arithmetic]
    cases b.asConstant with
    | some exponent =>
      exact .build h (Lowering.steady_power a exponent)
        (fun _ => Lowering.faultless_power hp hbelow.1) fun _ _ _ => trivial
    | none => exact .throw h (.untranslatable id)
  · exact .build h (steady_foldlM_plus forms)
      (fun _ => .liftM (onlyOverflows_foldlM_plus forms)) fun _ _ _ => trivial

/-! ## Items and extrema -/

theorem onlyOverflows_hull (h : ∀ form ∈ forms, form.Below p.columns.size) :
    OnlyOverflows (hull p forms) := by
  induction forms with
  | nil => exact .ok none
  | cons form forms ih =>
    rw [List.forall_mem_cons] at h
    rw [hull]
    refine (OnlyOverflows.bounds h.1).bind fun b _ => (ih h.2).bind fun rest _ => ?_
    cases rest <;> exact .ok _

theorem eq_nil_of_hull (h : hull p forms = .ok none) : forms = [] := by
  cases forms with
  | nil => rfl
  | cons form forms =>
    obtain ⟨_, _, _, _, _, hsome⟩ := hull_cons h
    cases hsome

theorem meets_hull (h : C.Holds t) (hforms : ∀ form ∈ forms, IsForm form t) :
    C.Meets (fun b _ => b = none → forms = []) (build e (do hull (← get) forms)) t := by
  refine Meets.build h (Keeps.get.bind fun _ => Lowering.steady_liftM _)
    (fun _ => .get (.liftM (onlyOverflows_hull hforms))) fun b q hrun hnone => ?_
  obtain ⟨_, _, hget, hlift⟩ := bind_eq_ok.1 hrun
  obtain ⟨hhull, -⟩ := Lowering.liftM_eq_ok.1 hlift
  rw [hnone] at hhull
  exact eq_nil_of_hull hhull

theorem meets_selectItem {array : List Expr} {position : Expr} (h : C.Holds t)
    (he : C.Admits t (.element array position)) (hindex : IsForm index t)
    (hitems : AreForms array items t) :
    C.Meets IsOver (selectItem (.element array position) index items) t := by
  refine Meets.returning (Q := fun _ _ => True) ?_ fun n t' hrun =>
    (defines_selectItem h.sound.program hindex hitems.below hrun).1
  unfold selectItem
  split
  · split
    · exact .pure h trivial
    · exact .throw h (.untranslatable id)
  · refine (meets_hull h hitems.below).bind fun b t₁ _ hg₁ h₁ hb => ?_
    split
    · have harray : array = [] := by
        rw [← List.length_eq_zero_iff, ← hitems.length, hb rfl, List.length_nil]
      refine .throw h₁ (.problem he ?_)
      rw [harray]
      rfl
    · have hindex₁ : IsForm index t₁ := hindex.mono hg₁.program.size_le
      refine Meets.bind (Q := fun _ _ => True) (.build h₁ (Lowering.steady_bounds index)
        (fun _ => .get (.liftM (.bounds hindex₁))) fun _ _ _ => trivial) fun b t₂ _ hg₂ h₂ _ => ?_
      dsimp only
      split
      · exact .throw h₂ (.untranslatable id)
      · refine Meets.bind (.build (Q := fun i t' => i < t'.program.columns.size) h₂
          (Lowering.steady_auxiliaryInt _ _ _) (fun _ => .of_ok rfl)
          fun i q hrun => (Lowering.column_of_auxiliaryInt hrun).1) fun i t₃ _ hg₃ h₃ hi => ?_
        have hg : t.Grows t₃ := (hg₁.trans hg₂).trans hg₃
        refine Meets.bind (Q := fun _ _ => True) (.build h₃
          (Lowering.steady_enforceElement _ _ _ _)
          (fun _ => Lowering.faultless_enforceElement h₃.sound.program
            (hindex.mono hg.program.size_le) (Affine.below_ofColumn.2 hi)
            (fun item hmem => (hitems.below item hmem).mono hg.program.size_le) (.nil _))
          fun _ _ _ => trivial) fun _ t₄ _ _ h₄ _ => ?_
        exact .pure h₄ trivial

theorem meets_extremum {kind : GlobalKind} {args : List Expr} (h : C.Holds t)
    (hkind : kind = .min ∨ kind = .max) (he : C.Admits t (.global (.plain kind args)))
    (hforms : AreForms args forms t) : C.Meets IsOver (extremum kind args forms) t := by
  refine Meets.returning (Q := fun _ _ => True) ?_ fun n t' hrun =>
    (defines_extremum h.sound.program hkind hforms.below hrun).1
  refine (meets_hull h hforms.below).bind fun b t₁ _ hg₁ h₁ hb => ?_
  split
  · have hargs : args = [] := by
      rw [← List.length_eq_zero_iff, ← hforms.length, hb rfl, List.length_nil]
    refine .throw h₁ (.problem he ?_)
    rw [hargs]
    rcases hkind with rfl | rfl <;> rfl
  · refine Meets.bind (.build (Q := fun i t' => i < t'.program.columns.size) h₁
      (Lowering.steady_auxiliaryInt _ _ _) (fun _ => .of_ok rfl)
      fun i q hrun => (Lowering.column_of_auxiliaryInt hrun).1) fun i t₂ _ hg₂ h₂ hi => ?_
    have hg : t.Grows t₂ := hg₁.trans hg₂
    have hextremum : ∀ op, Lowering.Faultless
        (Lowering.addExtremum (.ofColumn i) forms op) t₂.program := fun op =>
      Lowering.faultless_addExtremum h₂.sound.program (Affine.below_ofColumn.2 hi)
        fun form hmem => (hforms.below form hmem).mono hg.program.size_le
    split
    · exact Meets.bind (Q := fun _ _ => True) (.build h₂ (Lowering.steady_addExtremum _ _ _)
        (fun _ => hextremum .le) fun _ _ _ => trivial) fun _ _ _ _ h₃ _ => .pure h₃ trivial
    · exact Meets.bind (Q := fun _ _ => True) (.build h₂ (Lowering.steady_addExtremum _ _ _)
        (fun _ => hextremum .ge) fun _ _ _ => trivial) fun _ _ _ _ h₃ _ => .pure h₃ trivial

/-! ## Variables and coercions -/

theorem meets_imageOf {v : Var} (h : C.Holds t) (hv : e.IsVar v) (he : C.Admits t e) :
    C.Meets (fun image t' => t'.layout.get? v = some image) (imageOf v) t := by
  refine Meets.get ?_
  cases himage : t.layout.get? v with
  | none => exact .throw h (.ofUnregistered hv he (Option.not_isSome_iff_eq_none.2 himage))
  | some image => exact .pure h himage

theorem meets_affineOf (h : C.Holds t) (hv : IsOver v t) :
    C.Meets IsForm (build e (Lowering.affineOf v)) t :=
  .build h (Lowering.steady_affineOf v)
    (fun _ => Lowering.faultless_affineOf h.sound.program hv)
    fun _ _ hrun => Lowering.below_of_affineOf h.sound.program hv hrun

theorem meets_literalOf (h : C.Holds t) (hv : IsOver v t) :
    C.Meets (fun l t' => t'.program.IsTruth l) (build e (Lowering.literalOf v)) t :=
  .build h (Lowering.steady_literalOf v)
    (fun _ => Lowering.faultless_literalOf h.sound.program hv)
    fun _ _ hrun => (Lowering.reifies_of_literalOf h.sound.program hv hrun).truth

/-! ## Several expressions -/

/-- The step meets the contract wherever the expression is admitted, and gives a value over the
program. -/
def MeetsFor (C : Contract) (f : Expr → Translate Lowered) (e : Expr) : Prop :=
  ∀ t : Draft, C.Holds t → C.Admits t e → C.Meets IsOver (f e) t

theorem meets_affine (ih : MeetsFor C (lower limit deeper) e) (h : C.Holds t)
    (he : C.Admits t e) : C.Meets IsForm (affine limit deeper e) t :=
  (ih t h he).bind fun _ _ _ _ h₁ hv => meets_affineOf h₁ hv

theorem meets_literal (ih : MeetsFor C (lower limit deeper) e) (h : C.Holds t)
    (he : C.Admits t e) :
    C.Meets (fun l t' => t'.program.IsTruth l) (literal limit deeper e) t :=
  (ih t h he).bind fun _ _ _ _ h₁ hv => meets_literalOf h₁ hv

/-- A step for every expression, each with a result over the draft. -/
theorem meets_mapM {α : Type} {f : Expr → Translate α} {Over : α → Draft → Prop}
    (hmono : ∀ {a t t'}, Over a t → t.Grows t' → Over a t') (h : C.Holds t)
    (hes : ∀ e ∈ es, C.Admits t e)
    (hf : ∀ e ∈ es, ∀ t, C.Holds t → C.Admits t e → C.Meets Over (f e) t) :
    C.Meets (fun as t' => as.length = es.length ∧ ∀ a ∈ as, Over a t') (es.mapM f) t := by
  induction es generalizing t with
  | nil => exact .pure h ⟨rfl, List.forall_mem_nil _⟩
  | cons e es ih =>
    rw [List.forall_mem_cons] at hes hf
    rw [List.mapM_cons]
    refine (hf.1 t h hes.1).bind fun a t₁ _ hg₁ h₁ ha => ?_
    refine (ih h₁ (fun d hd => C.admits_mono (hes.2 d hd) hg₁) hf.2).bind
      fun as t₂ _ hg₂ h₂ has => .pure h₂ ⟨congrArg (· + 1) has.1, ?_⟩
    exact List.forall_mem_cons.2 ⟨hmono ha hg₂, has.2⟩

section Lists

variable (ih : ∀ e ∈ es, MeetsFor C (lower limit deeper) e) (h : C.Holds t)
  (hes : ∀ e ∈ es, C.Admits t e)

include ih h hes

theorem meets_lowerAll :
    C.Meets (fun vs t' => ∀ v ∈ vs, IsOver v t') (lowerAll limit deeper es) t := by
  rw [lowerAll_eq_mapM]
  have hall := meets_mapM (fun hv hg => hv.mono hg.program) h hes ih
  exact hall.returning fun vs t' hrun => (hall.returns vs t' hrun).2

theorem meets_affines : C.Meets (AreForms es) (affines limit deeper es) t := by
  rw [affines_eq_mapM]
  have hall := meets_mapM (fun hform hg => hform.mono hg.program.size_le) h hes
    fun e he _ h he' => meets_affine (ih e he) h he'
  exact hall.returning fun forms t' hrun =>
    ⟨(hall.returns forms t' hrun).1, (hall.returns forms t' hrun).2⟩

theorem meets_literals : C.Meets (AreLiterals es) (literals limit deeper es) t := by
  rw [literals_eq_mapM]
  have hall := meets_mapM (fun hl hg => hl.mono hg.program) h hes
    fun e he _ h he' => meets_literal (ih e he) h he'
  exact hall.returning fun ls t' hrun =>
    ⟨(hall.returns ls t' hrun).1, (hall.returns ls t' hrun).2⟩

theorem meets_equalities {value : Expr} (hvalue : MeetsFor C (lower limit deeper) value)
    (hv : C.Admits t value) :
    C.Meets (AreForms es) (equalities limit deeper value (lower limit deeper value) es) t := by
  induction es generalizing t with
  | nil => exact .pure h ⟨rfl, List.forall_mem_nil _⟩
  | cons e es ihes =>
    rw [List.forall_mem_cons] at ih hes
    refine (ih.1 t h hes.1).bind fun l t₁ _ hg₁ h₁ hl => ?_
    refine (meets_affineOf h₁ hl).bind fun a t₂ _ hg₂ h₂ ha => ?_
    have hg := hg₁.trans hg₂
    refine (hvalue t₂ h₂ (C.admits_mono hv hg)).bind fun r t₃ _ hg₃ h₃ hr => ?_
    refine (meets_affineOf h₃ hr).bind fun b t₄ _ hg₄ h₄ hb => ?_
    have hrelation : IsOver (.relation ⟨a, .eq, b⟩) t₄ :=
      .relation ⟨ha.mono (hg₃.trans hg₄).program.size_le, hb⟩
    refine (meets_affineOf h₄ hrelation).bind fun hit t₅ _ hg₅ h₅ hhit => ?_
    have hall := ((hg.trans hg₃).trans hg₄).trans hg₅
    refine (ihes ih.2 h₅ (fun d hd => C.admits_mono (hes.2 d hd) hall)
      (C.admits_mono hv hall)).bind fun hits t₆ _ hg₆ h₆ hhits => .pure h₆ ⟨?_, ?_⟩
    · rw [List.length_cons, List.length_cons, hhits.length]
    · exact List.forall_mem_cons.2 ⟨hhit.mono hg₆.program.size_le, hhits.below⟩

end Lists

/-! ## Globals -/

/-- What the next level of decomposition does meets the contract. -/
structure MeetsLevel (C : Contract) (level : Deeper) : Prop where
  lower : ∀ e, MeetsFor C level.lower e
  impose : ∀ guards e t, C.Holds t → C.Admits t e → C.Guards guards t →
    C.Meets (fun _ _ => True) (level.impose e guards) t

theorem expand_run {level : Deeper} {d : Decomposition}
    (hd : g.decompose t.program.columns.size = some d) :
    expand limit (some level) g t = .ok (level, d.constraints)
      ((t.withVars (d.newVars ++ varsOf d.constraints)).logged g) := by
  unfold expand
  refine bind_eq_ok.2 ⟨t, t, rfl, ?_⟩
  rw [hd]
  exact bind_eq_ok.2 ⟨(), _, registerAll_run _ t, rfl⟩

theorem meets_expand (h : C.Holds t) (hg : C.Admits t (.global g)) :
    C.Meets (fun pair t' => deeper = some pair.1 ∧ ∀ c ∈ pair.2, C.Admits t' c)
      (expand limit deeper g) t := by
  cases deeper with
  | none => exact .throw h ⟨nofun, nofun, nofun⟩
  | some level =>
    cases hd : g.decompose t.program.columns.size with
    | none =>
      refine Meets.get ?_
      rw [hd]
      exact .throw h (.untranslatable id)
    | some d =>
      have hgrows := t.grows_withVars (d.newVars ++ varsOf d.constraints)
      obtain ⟨hkeeps, hmembers⟩ := C.decompose h.sound h.keeps hg hd
      exact .of_ok (expand_run hd) ⟨hgrows.program, hgrows.layout⟩
        ⟨(h.sound.withVars _).logged g, hkeeps⟩ ⟨rfl, hmembers⟩

variable (hlevel : ∀ level, deeper = some level → MeetsLevel C level)

include hlevel

theorem meets_reifyGlobal (h : C.Holds t) (hg : C.Admits t (.global g)) :
    C.Meets IsOver (reifyGlobal limit deeper g) t := by
  refine (meets_expand h hg).bind fun pair t₁ _ _ h₁ hpair => ?_
  obtain ⟨level, cs⟩ := pair
  obtain ⟨hdeeper, hmembers⟩ := hpair
  have hnested : C.Meets (fun l t' => t'.program.IsTruth l) (nested do
      let value ← level.lower (.all cs)
      build (.all cs) (Lowering.literalOf value)) t₁ := by
    refine .nested (fun _ _ _ _ hl => hl) ?_
    refine ((hlevel level hdeeper).lower _ _ (h₁.atDepth _ _) ?_).bind
      fun v t₂ _ _ h₂ hv => meets_literalOf h₂ hv
    exact C.admits_all fun c hc => C.admits_mono (hmembers c hc) ⟨.refl _, .refl _⟩
  exact hnested.bind fun l t₂ _ _ h₂ hl => .pure h₂ (.literal hl)

theorem meets_lowerGlobal (iha : ∀ e ∈ g.args, MeetsFor C (lower limit deeper) e) (h : C.Holds t)
    (hg : C.Admits t (.global g)) : C.Meets IsOver (lowerGlobal limit deeper g) t := by
  have hreify : C.Meets IsOver (reifyGlobal limit deeper g) t := meets_reifyGlobal hlevel h hg
  have hargs : ∀ e ∈ g.args, C.Admits t e := fun e he => C.admits_child hg he
  cases g with
  | plain kind args =>
    have hextremum : kind = .min ∨ kind = .max → C.Meets IsOver (do
        let forms ← affines limit deeper args
        extremum kind args forms) t := fun hkind =>
      (meets_affines iha h hargs).bind fun forms t₁ _ hg₁ h₁ hforms =>
        meets_extremum h₁ hkind (C.admits_mono hg hg₁) hforms
    cases kind with
    | min => exact hextremum (.inl rfl)
    | max => exact hextremum (.inr rfl)
    | _ => exact hreify
  | count args value =>
    have hvalue : value ∈ args ++ [value] :=
      List.mem_append_right _ (List.mem_singleton_self value)
    refine (meets_equalities (fun e he => iha e (List.mem_append_left _ he)) h
      (fun e he => hargs e (List.mem_append_left _ he)) (iha value hvalue)
      (hargs value hvalue)).bind fun hits t₁ _ _ h₁ hhits => ?_
    refine Meets.bind (Q := IsForm) (.build h₁ (steady_foldlM_plus hits)
      (fun _ => .liftM (onlyOverflows_foldlM_plus hits)) fun c q hrun => ?_)
      fun c t₂ _ _ h₂ hc => .pure h₂ (Lowered.over_ofAffine hc)
    exact (computes_of_foldlM_plus h₁.sound.program hhits.below hrun).below
  | cardinality args values counts => exact hreify
  | named name args => exact hreify
  | defined name args constraints newVars => exact hreify

theorem meetsFor_lower (e : Expr) : MeetsFor C (lower limit deeper) e := by
  induction e using Expr.induction with
  | const c => exact fun t h _ => .pure h (.const c)
  | var v =>
    exact fun t h he => (meets_imageOf h (.inl rfl) he).bind fun image t₁ _ _ h₁ hv =>
      .pure h₁ (over_of_image h₁.sound hv).1
  | complement v =>
    intro t h he
    refine (meets_imageOf h (.inr rfl) he).bind fun image t₁ _ hg₁ h₁ hv => ?_
    have hover := (over_of_image h₁.sound hv).1
    cases image with
    | bool l =>
      cases hover with
      | literal hl => exact .pure h₁ (.literal (Ilp.isTruth_negate.2 hl))
    | int i =>
      refine .throw h₁ (.problem he ?_)
      obtain ⟨himage, -⟩ := h₁.sound.images v _ hv
      unfold Var.imageAt at himage
      split at himage
      · cases himage
      · rename_i hbool
        simp [Expr.problem?, hbool]
  | list es ih =>
    intro t h he
    refine (meets_lowerAll ih h fun e hmem => C.admits_child he hmem).bind
      fun vs t₁ _ _ h₁ hvs => .pure h₁ (.sequence hvs)
  | op o args ih =>
    intro t h he
    have hargs : ∀ e ∈ args, C.Admits t e := fun e hmem => C.admits_child he hmem
    rcases o.eq_xor_or with rfl | ho | ho
    · exact (meets_checkArity h he).bind fun _ t₁ _ _ h₁ _ => .throw h₁ (.untranslatable id)
    · rw [lower_connective ho]
      refine (meets_checkArity h he).bind fun _ t₁ _ hg₁ h₁ harity => ?_
      refine (meets_literals ih h₁ fun e hmem => C.admits_mono (hargs e hmem) hg₁).bind
        fun ls t₂ _ _ h₂ hls => ?_
      have htwo : o = .implies → args.length = 2 := fun heq => harity 2 (by rw [heq]; rfl)
      exact (meets_connective h₂ ho htwo hls).bind fun l t₃ _ _ h₃ hl => .pure h₃ (.literal hl)
    · rw [lower_arithmetic ho]
      refine (meets_checkArity h he).bind fun _ t₁ _ hg₁ h₁ harity => ?_
      refine (meets_affines ih h₁ fun e hmem => C.admits_mono (hargs e hmem) hg₁).bind
        fun forms t₂ _ _ h₂ hforms => ?_
      exact (meets_arithmetic h₂ ho harity hforms).bind
        fun c t₃ _ _ h₃ hc => .pure h₃ (Lowered.over_ofAffine hc)
  | compare c lhs rhs ihl ihr =>
    intro t h he
    have hl : C.Admits t lhs := C.admits_child he List.mem_cons_self
    have hr : C.Admits t rhs :=
      C.admits_child he (List.mem_cons_of_mem _ (List.mem_singleton_self rhs))
    rw [lower]
    refine (ihl t h hl).bind fun l t₁ _ hg₁ h₁ hlover => ?_
    refine (meets_affineOf h₁ hlover).bind fun a t₂ _ hg₂ h₂ ha => ?_
    refine (ihr t₂ h₂ (C.admits_mono hr (hg₁.trans hg₂))).bind fun r t₃ _ hg₃ h₃ hrover => ?_
    refine (meets_affineOf h₃ hrover).bind fun b t₄ _ hg₄ h₄ hb => ?_
    exact .pure h₄ (.relation ⟨ha.mono (hg₃.trans hg₄).program.size_le, hb⟩)
  | element array index iha ihi =>
    intro t h he
    have hi : C.Admits t index :=
      C.admits_child he (List.mem_append_right _ (List.mem_singleton_self index))
    rw [lower]
    refine (ihi t h hi).bind fun i t₁ _ hg₁ h₁ hover => ?_
    refine (meets_affineOf h₁ hover).bind fun form t₂ _ hg₂ h₂ hform => ?_
    have hg := hg₁.trans hg₂
    refine (meets_affines iha h₂ fun d hd =>
      C.admits_mono (C.admits_child he (List.mem_append_left _ hd)) hg).bind
        fun items t₃ _ hg₃ h₃ hitems => ?_
    exact meets_selectItem h₃ (C.admits_mono he (hg.trans hg₃))
      (hform.mono hg₃.program.size_le) hitems
  | global g iha _ => exact fun t h he => meets_lowerGlobal hlevel iha h he

end Translate

end Linearization
