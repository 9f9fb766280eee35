import Linearization.Proofs.Translation.Additions
import Linearization.Proofs.Translation.Agreement
import Linearization.Proofs.Translation.Model

/-!
# The order of constraints

Translating the constraints of a model in another order makes columns in another order, and another
constraint may be the one that makes a value encoding or the true column. The solutions stay the
same: they carry the same values of the variables of the model, each with the same values of the
objective (`Model.translate_perm`).

1. What solutions carry is described without the program (`Model.carried_iff`): the values of the
   declared variables that are registered lie in their domains, every constraint is met, and the
   objective comes to its value.
2. Which declared variables are registered does not depend on the order (`Model.Registers`). A
   decomposition may introduce one whose domain is empty, so this matters.
-/

namespace Linearization

/-- The direction and the value of the objective in a solution. -/
def Ilp.objectiveAt (p : Ilp) (x : Assignment) : Option (Direction × Int) :=
  p.objective.map fun (direction, form) => (direction, form.eval x)

/-- The objective of the model can come to the value. -/
def Model.Attains (m : Model) (σ : Valuation) (value : Option (Direction × Int)) : Prop :=
  match m.objective with
  | none => value = none
  | some o => ∃ k, o.expr.Yields σ (.number k) ∧ value = some (o.direction, k)

/-- All variables of the model, those that decompositions introduce included, are declared. -/
def Model.AllDeclared (m : Model) : Prop := ∀ e ∈ m.roots, e.AllVars Var.IsDeclared

variable {config : Config} {m m' : Model} {t t' : Draft} {u : Unit} {σ τ : Valuation}
  {value : Option (Direction × Int)} {tr tr' : Translation} {limit : Nat}

namespace Model

theorem scopes_declared (t : Draft) : t.Scopes VarKey.IsDeclared :=
  fun v hv => Var.IsDeclared.inScope (v := v) hv _

theorem AllDeclared.among {e : Expr} (h : m.AllDeclared) (he : e ∈ m.roots) :
    e.Among VarKey.IsDeclared := h e he

theorem AllDeclared.vars (h : m.AllDeclared) : ∀ v ∈ m.vars, v.IsDeclared := by
  intro v hv
  obtain ⟨e, he, hv⟩ := mem_occurrencesInAll.1 (Translate.mem_varsOf hv)
  exact (h e he).of_mem_occurrences hv

end Model

namespace Translate

open Draft

theorem offers_objective (hdeclared : m.AllDeclared) (hwf : t.WellFormed)
    (hnone : t.program.objective = none)
    (h : (match m.objective with
      | some o => installObjective config o
      | none => return () : Translate Unit) t = .ok u t') :
    ∃ s, t.Offers s VarKey.IsDeclared m.Attains (fun x => t'.program.objectiveAt x) ∧
      t'.layout = s.layout ∧ ∀ x, t'.program.Solves x ↔ s.program.Solves x := by
  cases ho : m.objective with
  | none =>
    rw [ho] at h
    obtain ⟨-, rfl⟩ := pure_eq_ok.1 h
    refine ⟨t, .refl hwf (fun x y _ => ?_) fun σ x value _ _ => ?_, rfl, fun _ => Iff.rfl⟩
    · simp only [Ilp.objectiveAt, hnone, Option.map_none]
    · simp only [Ilp.objectiveAt, hnone, Option.map_none, Model.Attains, ho]
      exact eq_comm
  | some o =>
    rw [ho] at h
    replace h : installObjective config o t = .ok u t' := h
    rw [installObjective_eq, ← bind_assoc] at h
    obtain ⟨form, s, hform, h⟩ := bind_eq_ok.1 h
    cases modify_eq_ok.1 h
    have hroot : o.expr ∈ m.roots := List.mem_append_right _ (by simp [ho])
    have hlower : OffersFor (lowerExpr config) o.expr := fun t t' n P hwf hP he h =>
      offers_lowerWithin _ _ o.expr hwf hP he h
    obtain ⟨-, hoffers⟩ := offers_form hlower hwf (Model.scopes_declared t) (hdeclared.among hroot)
      hform
    refine ⟨s, (hoffers.map fun k => some (o.direction, k)).congr fun σ value => ?_, rfl,
      fun _ => Iff.rfl⟩
    simp only [Model.Attains, ho, @eq_comm _ value]

/-- The constraints are imposed after the registration, and then the objective is installed. -/
theorem exists_of_model (hdeclared : m.AllDeclared) (h : model config m (.start limit) = .ok u t') :
    ∃ t s, (registered limit m).Enforces t VarKey.IsDeclared [] (fun σ =>
        ∀ c ∈ m.constraints, c.Meets σ) ∧
      t.Offers s VarKey.IsDeclared m.Attains (fun x => t'.program.objectiveAt x) ∧
      t'.layout = s.layout ∧ ∀ x, t'.program.Solves x ↔ s.program.Solves x := by
  obtain ⟨_, _, hregister, h⟩ := bind_eq_ok.1 h
  cases (registerAll_run m.vars _).symm.trans hregister
  obtain ⟨_, t, hconstraints, h⟩ := bind_eq_ok.1 h
  have henforces := enforces_forM
    (fun c _ t t' guards u P hwf hP he hg h => enforces_imposeExpr hwf hP he hg h)
    (wellFormed_of_declared limit hdeclared.vars) (Model.scopes_declared _)
    (fun c hc => hdeclared.among (List.mem_append_left _ hc)) (List.forall_mem_nil _) hconstraints
  have hregistered := (Draft.start limit).grows_withVars m.vars
  have hnone : t.program.objective = none :=
    henforces.grows.program.objective.trans hregistered.program.objective
  obtain ⟨s, hrest⟩ := offers_objective hdeclared henforces.wellFormed hnone h
  exact ⟨t, s, henforces, hrest⟩

end Translate

namespace Model

/-- The declared variables that are registered have values of their domains, every constraint is met
and the objective can come to the value. -/
structure Fits (m : Model) (σ : Valuation) (value : Option (Direction × Int)) : Prop where
  within : ∀ v : Var, v.IsDeclared → m.Registers v.toVarKey → v.domain.Admits (σ v.toVarKey)
  meets : ∀ c ∈ m.constraints, c.Meets σ
  attains : m.Attains σ value

/-- What solutions of the translation give the declared variables and the objective. -/
theorem carried_iff (hdeclared : m.AllDeclared) (h : m.translate config = .ok tr) :
    (∃ x, tr.program.Solves x ∧ tr.program.objectiveAt x = value ∧ ∀ v : Var, v.IsDeclared →
      tr.layout.Has v → tr.layout.valuation x v.toVarKey = σ v.toVarKey) ↔ m.Fits σ value := by
  have hregisters : ∀ {v : Var}, v.IsDeclared → (tr.layout.Has v ↔ m.Registers v.toVarKey) :=
    fun hv => has_of_translate_iff h hv
  obtain ⟨t', hrun, rfl⟩ := translate_eq_ok.1 h
  obtain ⟨t, s, henforces, hoffers, hlayout, hsolves⟩ := Translate.exists_of_model hdeclared hrun
  dsimp only at hregisters ⊢
  rw [hlayout] at hregisters ⊢
  simp only [hsolves]
  constructor
  · rintro ⟨x, hx, hvalue, hσ⟩
    have hcarries : s.Carries VarKey.IsDeclared σ x := fun v hv hdeclared => hσ v hdeclared hv
    refine ⟨fun v hv hregistered => ?_, ?_, ?_⟩
    · have hhas : s.layout.Has v := (hregisters hv).2 hregistered
      rw [← hσ v hv hhas]
      exact hoffers.wellFormed.admits hx hhas
    · exact henforces.sound σ x (hoffers.grows.program.solves hx) (hcarries.back hoffers.grows)
        (List.forall_mem_nil _)
    · rw [← hvalue]
      exact hoffers.sound σ x hx hcarries
  · rintro ⟨hwithin, hmeets, hattains⟩
    have hin : s.Within VarKey.IsDeclared σ := fun v hv hdeclared =>
      hwithin v hdeclared ((hregisters hdeclared).1 hv)
    have hgrows := henforces.grows.trans hoffers.grows
    have hdomain : σ.InDomain m.vars := fun v hv =>
      hin v (hgrows.layout.has (Translate.has_registered.2 (List.mem_map_of_mem hv)))
        (hdeclared.vars v hv)
    -- registration comes first, then the constraints and then the objective
    obtain ⟨x, hx, hvalues⟩ := Translate.exists_values_registered config.maxDomainEnumeration
      hdeclared.vars hdomain
    obtain ⟨y, -, hy, hσy⟩ := henforces.complete σ x hx (fun v hv _ => hvalues v hv)
      (hin.back hoffers.grows) fun _ => hmeets
    obtain ⟨z, -, hz, hσz, hvalue⟩ := hoffers.complete σ y value hy hσy hin hattains
    exact ⟨z, hz, hvalue, fun v hv hhas => hσz v hhas hv⟩

/-- What solutions give some of the variables that the roots mention, and the objective. -/
theorem exists_carries_iff {vs : List Var} (hdeclared : m.AllDeclared)
    (h : m.translate config = .ok tr)
    (hvs : ∀ v ∈ vs, v.IsDeclared ∧ ∃ e ∈ m.roots, e.Mentions v.toVarKey) :
    (∃ x, tr.layout.Carries vs σ x ∧ tr.program.Solves x ∧ tr.program.objectiveAt x = value) ↔
      ∃ τ, (∀ v ∈ vs, τ v.toVarKey = σ v.toVarKey) ∧ m.Fits τ value := by
  constructor
  · rintro ⟨x, hσ, hx, hvalue⟩
    refine ⟨tr.layout.valuation x, fun v hv => (Layout.carries_iff.1 hσ v hv).2, ?_⟩
    exact (carried_iff hdeclared h).1 ⟨x, hx, hvalue, fun _ _ _ => rfl⟩
  · rintro ⟨τ, hτ, hfits⟩
    obtain ⟨x, hx, hvalue, hcarries⟩ := (carried_iff hdeclared h).2 hfits
    refine ⟨x, Layout.carries_iff.2 fun v hv => ?_, hx, hvalue⟩
    obtain ⟨hv', hmentioned⟩ := hvs v hv
    have hhas : tr.layout.Has v := (has_of_translate_iff h hv').2 (.inl hmentioned)
    exact ⟨hhas, (hcarries v hv' hhas).trans (hτ v hv)⟩

/-! ## Another order -/

/-- The second model has the constraints of the first one in some order, and the same objective. -/
structure Reorders (m m' : Model) : Prop where
  constraints : m.constraints.Perm m'.constraints
  objective : m'.objective = m.objective

namespace Reorders

theorem symm (h : m.Reorders m') : m'.Reorders m := ⟨h.constraints.symm, h.objective.symm⟩

theorem mem_roots (h : m.Reorders m') {e : Expr} : e ∈ m'.roots ↔ e ∈ m.roots := by
  unfold roots
  rw [List.mem_append, List.mem_append, h.constraints.mem_iff, h.objective]

theorem allDeclared (h : m.Reorders m') (hdeclared : m.AllDeclared) : m'.AllDeclared :=
  fun e he => hdeclared e (h.mem_roots.1 he)

theorem registers (h : m.Reorders m') {k : VarKey} (hk : m.Registers k) : m'.Registers k := by
  refine hk.imp (fun ⟨e, he, hk⟩ => ⟨e, h.mem_roots.2 he, hk⟩) (Or.imp ?_ ?_)
  · exact fun ⟨c, hc, hk⟩ => ⟨c, h.constraints.mem_iff.1 hc, hk⟩
  · rw [h.objective]
    exact id

theorem fits (h : m.Reorders m') (hfits : m.Fits σ value) : m'.Fits σ value where
  within v hv hregisters := hfits.within v hv (h.symm.registers hregisters)
  meets c hc := hfits.meets c (h.constraints.mem_iff.2 hc)
  attains := by
    unfold Attains
    rw [h.objective]
    exact hfits.attains

end Reorders

/-- A model with its constraints in another order has the same solutions: they carry the same values
of its variables, all of them in their domains, and each of these with the same values of the
objective. -/
theorem translate_perm (hdeclared : m.AllDeclared) (hm : m.Reorders m')
    (h : m.translate config = .ok tr) (h' : m'.translate config = .ok tr') (σ : Valuation) :
    ((∃ x, tr.layout.Carries m.vars σ x ∧ tr.program.Solves x) ↔
        ∃ x, tr'.layout.Carries m.vars σ x ∧ tr'.program.Solves x) ∧
      ∀ value, (∃ x, tr.layout.Carries m.vars σ x ∧ tr.program.Solves x ∧
          tr.program.objectiveAt x = value) ↔
        ∃ x, tr'.layout.Carries m.vars σ x ∧ tr'.program.Solves x ∧
          tr'.program.objectiveAt x = value := by
  have hvars : ∀ v ∈ m.vars, v.IsDeclared ∧ ∃ e ∈ m.roots, e.Mentions v.toVarKey := fun v hv =>
    ⟨hdeclared.vars v hv, Expr.mem_keysOf_varsOf.1 (List.mem_map_of_mem hv)⟩
  have hvars' : ∀ v ∈ m.vars, v.IsDeclared ∧ ∃ e ∈ m'.roots, e.Mentions v.toVarKey := fun v hv =>
    (hvars v hv).imp_right fun ⟨e, he, hv⟩ => ⟨e, hm.mem_roots.2 he, hv⟩
  have hvalue : ∀ value, (∃ x, tr.layout.Carries m.vars σ x ∧ tr.program.Solves x ∧
        tr.program.objectiveAt x = value) ↔
      ∃ x, tr'.layout.Carries m.vars σ x ∧ tr'.program.Solves x ∧
        tr'.program.objectiveAt x = value := fun value => by
    rw [exists_carries_iff hdeclared h hvars,
      exists_carries_iff (hm.allDeclared hdeclared) h' hvars']
    exact exists_congr fun τ => and_congr_right fun _ => ⟨hm.fits, hm.symm.fits⟩
  refine ⟨⟨fun ⟨x, hσ, hx⟩ => ?_, fun ⟨x, hσ, hx⟩ => ?_⟩, hvalue⟩
  · obtain ⟨y, hσy, hy, -⟩ := (hvalue _).1 ⟨x, hσ, hx, rfl⟩
    exact ⟨y, hσy, hy⟩
  · obtain ⟨y, hσy, hy, -⟩ := (hvalue _).2 ⟨x, hσ, hx, rfl⟩
    exact ⟨y, hσy, hy⟩

/-- Both constraints need the true column and the encoding of `x`, and one introduces a variable of
its own. -/
theorem translate_perm_of_shared :
    let x : Var := ⟨⟨.declared 0, .int 0 2⟩, "x"⟩
    let y : Var := ⟨⟨.declared 1, .int 0 2⟩, "y"⟩
    let z : Var := ⟨⟨.declared 2, .int 1 4⟩, "z"⟩
    let choice : Expr := .op .implies [.const 1,
      .compare .eq (.element [.const 2, .const 0, .const 1] (.var x)) (.var y)]
    let scaled : Expr := .global (.defined "scaled" [.var x, .var y]
      [.op .or [.const 0, .compare .lt (.op .mul [.var x, .var z]) (.var y)]] [z])
    let o : Objective := ⟨.maximize, .op .sum [.var x, .op .div [.var y, .const 2]]⟩
    let m : Model := { constraints := [choice, scaled], objective := some o }
    let m' : Model := { constraints := [scaled, choice], objective := some o }
    ∃ tr tr', m.translate {} = .ok tr ∧ m'.translate {} = .ok tr' ∧
      tr.program.trueColumn = some 2 ∧ tr'.program.trueColumn = some 3 ∧
      tr.layout.get? z = some (.int 6) ∧ tr'.layout.get? z = some (.int 2) ∧ ∀ σ value,
        (∃ x, tr.layout.Carries m.vars σ x ∧ tr.program.Solves x ∧
            tr.program.objectiveAt x = value) ↔
          ∃ x, tr'.layout.Carries m.vars σ x ∧ tr'.program.Solves x ∧
            tr'.program.objectiveAt x = value := by
  intro x y z choice scaled o m m'
  have hx : (Expr.var x).AllVars Var.IsDeclared := .var ⟨0, rfl⟩
  have hy : (Expr.var y).AllVars Var.IsDeclared := .var ⟨1, rfl⟩
  have hz : (Expr.var z).AllVars Var.IsDeclared := .var ⟨2, rfl⟩
  have hconst : ∀ k, (Expr.const k).AllVars Var.IsDeclared := .const
  have hitem : (Expr.compare .eq (.element [.const 2, .const 0, .const 1] (.var x))
      (.var y)).AllVars Var.IsDeclared := .compare (.element (by simp [hconst]) hx) hy
  have hbelow : (Expr.compare .lt (.op .mul [.var x, .var z]) (.var y)).AllVars Var.IsDeclared :=
    .compare (.op (by simp [hx, hz])) hy
  have hmember : (Expr.op .or [.const 0, .compare .lt (.op .mul [.var x, .var z])
      (.var y)]).AllVars Var.IsDeclared := .op (by simp [hconst, hbelow])
  have hchoice : choice.AllVars Var.IsDeclared := .op (by simp [hconst, hitem])
  have hscaled : scaled.AllVars Var.IsDeclared :=
    .global (by simp [Global.args, hx, hy]) (List.forall_mem_singleton.2 hmember)
      (List.forall_mem_singleton.2 ⟨2, rfl⟩)
  have hhalf : (Expr.op .div [.var y, .const 2]).AllVars Var.IsDeclared :=
    .op (by simp [hy, hconst])
  have hdeclared : m.AllDeclared := List.forall_mem_cons.2 ⟨hchoice, List.forall_mem_cons.2
    ⟨hscaled, List.forall_mem_singleton.2 (.op (by simp [hx, hhalf]))⟩⟩
  have hreorders : m.Reorders m' := ⟨.swap scaled choice [], rfl⟩
  have hrun : (m.translate {}).toOption.map (fun tr => (tr.program.trueColumn, tr.layout.get? z)) =
      some (some 2, some (.int 6)) := by decide +kernel
  have hrun' : (m'.translate {}).toOption.map (fun tr =>
      (tr.program.trueColumn, tr.layout.get? z)) = some (some 3, some (.int 2)) := by
    decide +kernel
  obtain ⟨tr, h, hcolumns⟩ := exists_of_toOption_map hrun
  obtain ⟨tr', h', hcolumns'⟩ := exists_of_toOption_map hrun'
  obtain ⟨htrue, hz⟩ := Prod.mk.inj hcolumns
  obtain ⟨htrue', hz'⟩ := Prod.mk.inj hcolumns'
  exact ⟨tr, tr', h, h', htrue, htrue', hz, hz', fun σ value =>
    (translate_perm hdeclared hreorders h h' σ).2 value⟩

end Model

end Linearization
