import Linearization.Proofs.Translation.Distinct
import Linearization.Proofs.Translation.Symmetry

/-!
# Exact extrema

A minimum or maximum as a constraint and as a value.

As a constraint on a program that calls have built it leaves exactly the solutions in which the target
is the smallest, or the largest, of the values of the forms. As a value it becomes a new column, whose
bounds are the hull of those of its arguments: no earlier solution is cut off by them, and in every
solution the column is the extremum of the values of the arguments (`extrema_exact`).
-/

namespace Linearization

open Ilp Lowering

namespace Translate

variable {t t' : Draft} {kind : GlobalKind} {args es : List Expr} {forms : List Affine}
  {target : Affine} {n : Lowered} {config : Config} {P : VarKey → Prop} {p q : Ilp}
  {f : List Int → Option Int} {op : Comparison} {u : Unit} {x : Assignment}

/-! ## Constraints -/

theorem exists_iff_of_addExtremum (hf : PicksExtremum f op) (hp : p.WellFormed)
    (htarget : target.Below p.columns.size) (hforms : ∀ e ∈ forms, e.Below p.columns.size)
    (h : addExtremum target forms op p = .ok u q) (hx : p.Solves x) :
    (∃ y, AgreeBelow p.columns.size x y ∧ q.Solves y) ↔
      f (forms.map (·.eval x)) = some (target.eval x) := by
  have himposes := (imposes_of_addExtremum hp htarget hforms h).congr fun x _ => hf.imposed_iff
  refine himposes.exists_iff (fun x y hxy => ?_) hx
  dsimp only
  rw [htarget.eval_congr hxy, List.map_congr_left fun e he => (hforms e he).eval_congr hxy]

/-! ## Values -/

theorem lowerExpr_extremum (config : Config) (hkind : kind = .min ∨ kind = .max)
    (args : List Expr) :
    lowerExpr config (.global (.plain kind args)) =
      args.mapM (formBy (lowerExpr config)) >>= extremum kind args := by
  funext t
  have hforms : Settles config.maxDecompositionDepth t.depth
      (fun calls bottom =>
        args.mapM (formBy (unrolled config.maxDecompositionDepth bottom calls).lower))
      (args.mapM (formBy (lowerExpr config))) :=
    .mapM fun e _ => settles_form config t.depth e
  have hsettles := hforms.bind fun forms => .of_keeps (callFree_extremum kind args forms).keepsDepth
  refine Settles.unique (lowers_lowerExpr config t.depth _) (.of_succ ?_)
  rcases hkind with rfl | rfl
  · exact hsettles
  · exact hsettles

end Translate

namespace Draft

open Translate

variable {t t' : Draft} {kind : GlobalKind} {args : List Expr} {forms : List Affine} {n : Lowered}
  {config : Config} {i : Nat}

/-- A new column for the extremum of the forms: its bounds are their hull, every earlier solution
extends with the extremum as its value, and in every solution it is the extremum. -/
structure AddsExtremum (t t' : Draft) (kind : GlobalKind) (forms : List Affine) (i : Nat) :
    Prop where
  fresh : i = t.program.columns.size
  bounded : ∃ name lower upper, hull t.program forms = .ok (some (lower, upper)) ∧
    t'.program.columns[i]? = some ⟨name, lower, upper, false⟩
  complete : ∀ x, t.program.Solves x → ∃ y, AgreeBelow t.program.columns.size x y ∧
    t'.program.Solves y ∧ kind.pick (forms.map (·.eval x)) = some (y i)
  exact : ∀ y, t'.program.Solves y → kind.pick (forms.map (·.eval y)) = some (y i)

theorem addsExtremum_of_extremum (hp : t.program.WellFormed)
    (hforms : ∀ form ∈ forms, form.Below t.program.columns.size)
    (h : extremum kind args forms t = .ok n t') :
    t.program.Grows t'.program ∧ t'.layout = t.layout ∧
      ∃ i, n = .column i ∧ t.AddsExtremum t' kind forms i := by
  obtain ⟨lower, upper, i, q₁, q₂, u, hhull, h₁, h₂, rfl, rfl⟩ := extremum_eq_ok h
  obtain ⟨-, hdefines⟩ := defines_pick (picksExtremum_pick kind) hp hforms hhull h₁ h₂
  refine ⟨hdefines.grows, rfl, i, rfl, ?_⟩
  refine ⟨(auxiliaryInt_eq_ok h₁).1, ?_, fun x hx => ?_, hdefines.sound⟩
  · obtain ⟨rfl, name, rfl⟩ := auxiliaryInt_eq_ok h₁
    have hgrows := (steady_addExtremum _ _ _).grows (hp.withColumn _) h₂
    refine ⟨name, lower, upper, hhull, ?_⟩
    exact hgrows.column (t.program.getElem?_withColumn_size _)
  · obtain ⟨y, hxy, hy⟩ := hdefines.complete x hx trivial
    refine ⟨y, hxy, hy, ?_⟩
    rw [List.map_congr_left fun form hform => (hforms form hform).eval_congr hxy]
    exact hdefines.sound y hy

/-- In a program that calls have built, an earlier solution extends to the columns and rows of a
minimum, or a maximum, exactly if the target is the smallest, or the largest, of the values of the
forms. From a draft of the translation, an extremum as a value becomes a column that starts from the
hull of the forms of its arguments: every earlier solution extends, and in every solution the column
is the extremum of what the arguments come to. -/
theorem extrema_exact :
    (∀ limit p target forms, (Ilp.empty limit).Reaches p → target.Below p.columns.size →
      (∀ e ∈ forms, e.Below p.columns.size) →
      (∀ u q, addMinimum target forms p = .ok u q → ∀ x, p.Solves x →
        ((∃ y, AgreeBelow p.columns.size x y ∧ q.Solves y) ↔
          (forms.map (·.eval x)).min? = some (target.eval x))) ∧
      ∀ u q, addMaximum target forms p = .ok u q → ∀ x, p.Solves x →
        ((∃ y, AgreeBelow p.columns.size x y ∧ q.Solves y) ↔
          (forms.map (·.eval x)).max? = some (target.eval x))) ∧
    ∀ config t kind args n t', t.Reachable config → kind = .min ∨ kind = .max →
      (Expr.global (.plain kind args)).AllVars t.Accepts →
      lowerExpr config (.global (.plain kind args)) t = .ok n t' →
      (∀ x, t.program.Solves x → t.ExtendsTo t' x) ∧
      ∃ forms s i, args.mapM (formBy (lowerExpr config)) t = .ok forms s ∧ n = .column i ∧
        s.AddsExtremum t' kind forms i ∧
        ∀ y, t'.program.Solves y →
          Expr.YieldsAll (t'.layout.valuation y) args (forms.map (·.eval y)) := by
  constructor
  · intro limit p target forms hp htarget hforms
    have hwf : p.WellFormed := hp.wellFormed (.empty limit)
    exact ⟨fun u q h x hx => exists_iff_of_addExtremum picksExtremum_min hwf htarget hforms h hx,
      fun u q h x hx => exists_iff_of_addExtremum picksExtremum_max hwf htarget hforms h hx⟩
  · intro config t kind args n t' ht hkind hvars h
    have hwf : t.WellFormed := ht.wellFormed
    obtain ⟨-, hvalue⟩ := offers_lowerExpr config _ hwf t.scopes_accepted hvars h
    refine ⟨fun x hx => hvalue.extendsTo hwf hx, ?_⟩
    rw [lowerExpr_extremum config hkind args] at h
    obtain ⟨forms, s, hrun, h⟩ := bind_eq_ok.1 h
    obtain ⟨hforms, hoffers⟩ := offers_forms (fun e _ => offers_lowerExpr config e) hwf
      t.scopes_accepted (fun e he => Expr.AllVars.child hvars he) hrun
    obtain ⟨hgrows, hlayout, i, rfl, hadds⟩ :=
      addsExtremum_of_extremum hoffers.wellFormed.program hforms h
    refine ⟨forms, s, i, hrun, rfl, hadds, fun y hy => ?_⟩
    rw [hlayout]
    exact hoffers.sound _ y (hgrows.solves hy) fun _ _ _ => rfl

/-- The minimum of forms of which one is repeated and one has the column of the target, and the
maximum of variables of which one is repeated and one stands under a division. -/
theorem extrema_exact_of_repeated :
    let p := (Ilp.empty 4096).afterCalls [.newInt (-2) 3 "a", .newInt 0 5 "b", .newInt (-9) 9 "m"]
    let target : Affine := .ofColumn 2 + .ofColumn 0
    let forms : List Affine := [.ofColumn 0, .ofColumn 1, target, .ofColumn 0]
    let v : Var := ⟨⟨.declared 0, .int (-3) 3⟩, "v"⟩
    let w : Var := ⟨⟨.declared 1, .int 0 7⟩, "w"⟩
    let args : List Expr := [.var v, .op .div [.var w, .const 2], .var v]
    let t := stateAfter (register w) (stateAfter (register v) (start 4096))
    (∃ u q, addMinimum target forms p = .ok u q ∧ ∀ x, p.Solves x →
      ((∃ y, AgreeBelow p.columns.size x y ∧ q.Solves y) ↔
        (forms.map (·.eval x)).min? = some (target.eval x))) ∧
    ∃ n t', lowerExpr {} (.global (.plain .max args)) t = .ok n t' ∧
      ∃ forms s i, args.mapM (formBy (lowerExpr {})) t = .ok forms s ∧ n = .column i ∧
        s.AddsExtremum t' .max forms i := by
  intro p target forms v w args t
  have hp : (Ilp.empty 4096).Reaches p := Reaches.refl.afterCalls _
  have htarget : target.Below p.columns.size := by decide
  have hforms : ∀ e ∈ forms, e.Below p.columns.size := by decide
  have hrun : succeedsWith (addMinimum target forms) p (fun _ _ => true) = true := by
    decide +kernel
  have ht : t.Reachable {} :=
    .register (.register .start fun column hc => by cases hc) fun column hc => by cases hc
  have hv : t.Accepts v := ⟨Var.IsDeclared.inScope ⟨0, rfl⟩ _, .inl (by decide)⟩
  have hw : t.Accepts w := ⟨Var.IsDeclared.inScope ⟨1, rfl⟩ _, .inl (by decide)⟩
  have hhalf : (Expr.op .div [.var w, .const 2]).AllVars t.Accepts :=
    .op (List.forall_mem_cons.2 ⟨.var hw, List.forall_mem_singleton.2 (.const 2)⟩)
  have hargs : ∀ a ∈ args, a.AllVars t.Accepts :=
    List.forall_mem_cons.2 ⟨.var hv, List.forall_mem_cons.2 ⟨hhalf,
      List.forall_mem_singleton.2 (.var hv)⟩⟩
  have hvars : (Expr.global (.plain .max args)).AllVars t.Accepts :=
    .global hargs (List.forall_mem_nil _) (List.forall_mem_nil _)
  have hrun' : succeedsWith (lowerExpr {} (.global (.plain .max args))) t
      (fun _ _ => true) = true := by
    decide +kernel
  obtain ⟨u, q, h, -⟩ := exists_of_succeedsWith hrun
  obtain ⟨n, t', h', -⟩ := exists_of_succeedsWith hrun'
  obtain ⟨hconstraint, hvalue⟩ := extrema_exact
  refine ⟨⟨u, q, h, (hconstraint 4096 p target forms hp htarget hforms).1 u q h⟩, n, t', h', ?_⟩
  obtain ⟨-, forms', s, i, hforms', hn, hadds, -⟩ :=
    hvalue {} t .max args n t' ht (.inr rfl) hvars h'
  exact ⟨forms', s, i, hforms', hn, hadds⟩

end Draft

end Linearization
