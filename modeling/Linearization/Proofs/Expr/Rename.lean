import Linearization.Expr.Decomposition
import Linearization.Model
import Linearization.Proofs.Expr.Induction

/-!
# Renaming variables

A renaming gives every declared variable a name that depends on its identity; the identities and
with them kinds and bounds stay, and several variables may get one name. The variables that
decompositions introduce keep the names they are made with.

Names are not looked at by anything that takes expressions apart: occurrences
(`occurrences_rename`), first occurrences (`varsOf_rename`) and decompositions (`decompose_rename`)
of the renamed are those of the original, renamed.
-/

namespace Linearization

variable (ρ : VarKey → String)

/-- The variable under its new name, if it is declared. -/
def Var.rename (v : Var) : Var :=
  match v.serial with
  | .declared _ => { v with name := ρ v.toVarKey }
  | .introduced _ => v

mutual

/-- The expression with all its declared variables renamed. -/
def Expr.rename : Expr → Expr
  | .const c => .const c
  | .var v => .var (v.rename ρ)
  | .complement v => .complement (v.rename ρ)
  | .list items => .list (renameAll items)
  | .op o args => .op o (renameAll args)
  | .compare c lhs rhs => .compare c lhs.rename rhs.rename
  | .element array index => .element (renameAll array) index.rename
  | .global g => .global g.rename
  termination_by structural e => e

/-- The global with all its declared variables renamed. -/
def Global.rename : Global → Global
  | .plain kind args => .plain kind (renameAll args)
  | .count args value => .count (renameAll args) value.rename
  | .cardinality args values counts => .cardinality (renameAll args) values (renameAll counts)
  | .named name args => .named name (renameAll args)
  | .defined name args constraints newVars =>
    .defined name (renameAll args) (renameAll constraints) (newVars.map (Var.rename ρ))
  termination_by structural g => g

/-- Several expressions with all their declared variables renamed. -/
def renameAll : List Expr → List Expr
  | [] => []
  | e :: es => e.rename :: renameAll es
  termination_by structural es => es

end

/-- The decomposition with all its declared variables renamed. -/
def Decomposition.rename (d : Decomposition) : Decomposition :=
  ⟨d.constraints.map (Expr.rename ρ), d.newVars.map (Var.rename ρ)⟩

/-- The objective over renamed variables. -/
def Objective.rename (o : Objective) : Objective := { o with expr := o.expr.rename ρ }

/-- The model with all its declared variables renamed. -/
def Model.rename (m : Model) : Model where
  name := m.name
  constraints := m.constraints.map (Expr.rename ρ)
  objective := m.objective.map (Objective.rename ρ)

variable {ρ} {v w : Var} {e : Expr} {es : List Expr} {vs : List Var} {g : Global}

/-! ## Variables -/

theorem Var.rename_of_introduced {column : Nat} (h : v.serial = .introduced column) :
    v.rename ρ = v := by
  unfold rename
  rw [h]

@[simp] theorem Var.toVarKey_rename (v : Var) : (v.rename ρ).toVarKey = v.toVarKey := by
  unfold rename
  split <;> rfl

@[simp] theorem Var.domain_rename (v : Var) : (v.rename ρ).domain = v.domain :=
  congrArg VarKey.domain (v.toVarKey_rename (ρ := ρ))

@[simp] theorem Var.isBool_rename (v : Var) : (v.rename ρ).isBool = v.isBool := by
  unfold isBool
  rw [domain_rename]

@[simp] theorem Var.rename_orderVar (firstColumn size step : Nat) :
    (orderVar firstColumn size step).rename ρ = orderVar firstColumn size step := rfl

theorem firstOfEach_map_rename (vs : List Var) :
    firstOfEach (vs.map (Var.rename ρ)) = (firstOfEach vs).map (Var.rename ρ) := by
  induction vs with
  | nil => rfl
  | cons v vs ih =>
    rw [List.map_cons, firstOfEach, firstOfEach, List.map_cons, ih, List.filter_map]
    simp [Function.comp_def]

/-! ## Expressions -/

theorem renameAll_eq_map (es : List Expr) : renameAll ρ es = es.map (Expr.rename ρ) := by
  induction es with
  | nil => rfl
  | cons e es ih => rw [renameAll, ih, List.map_cons]

@[simp] theorem length_renameAll (es : List Expr) : (renameAll ρ es).length = es.length := by
  rw [renameAll_eq_map, List.length_map]

@[simp] theorem Global.name_rename (g : Global) : (g.rename ρ).name = g.name := by
  cases g <;> rfl

/-- Variables occur at the same places, and are renamed there. -/
def RenamesPlaces (ρ : VarKey → String) (occurrences renamed : List VarKey → List Var) : Prop :=
  ∀ hidden, renamed hidden = (occurrences hidden).map (Var.rename ρ)

theorem RenamesPlaces.all (h : ∀ e ∈ es, RenamesPlaces ρ (fun k => e.occurrences k) fun k =>
    (e.rename ρ).occurrences k) :
    RenamesPlaces ρ (fun k => occurrencesInAll k es) fun k =>
      occurrencesInAll k (renameAll ρ es) := by
  intro hidden
  induction es with
  | nil => rfl
  | cons e es ih =>
    rw [List.forall_mem_cons] at h
    dsimp only at ih ⊢
    rw [renameAll, occurrencesInAll, occurrencesInAll, List.map_append, ih h.2]
    exact congrArg (· ++ _) (h.1 hidden)

theorem occurrences_rename (e : Expr) :
    RenamesPlaces ρ (fun k => e.occurrences k) fun k => (e.rename ρ).occurrences k := by
  -- hidden are the same variables, since these are given by their identities
  induction e using Expr.induction with
  | const c => exact fun hidden => rfl
  | var v =>
    intro hidden
    simp only [Expr.rename, Expr.occurrences, Var.toVarKey_rename]
    split <;> rfl
  | complement v =>
    intro hidden
    simp only [Expr.rename, Expr.occurrences, Var.toVarKey_rename]
    split <;> rfl
  | list es ih => exact RenamesPlaces.all ih
  | op o args ih => exact RenamesPlaces.all ih
  | compare c lhs rhs ihl ihr =>
    intro hidden
    have hl := ihl hidden
    have hr := ihr hidden
    dsimp only at hl hr ⊢
    rw [Expr.rename, Expr.occurrences, Expr.occurrences, List.map_append, hl, hr]
  | element array index iha ihi =>
    intro hidden
    have ha := RenamesPlaces.all iha hidden
    have hi := ihi hidden
    dsimp only at ha hi ⊢
    rw [Expr.rename, Expr.occurrences, Expr.occurrences, List.map_append, ha, hi]
  | global g iha ihm =>
    intro hidden
    dsimp only
    rw [Expr.rename, Expr.occurrences, Expr.occurrences]
    cases g with
    | plain kind args => exact RenamesPlaces.all iha hidden
    | count args value =>
      have ha := RenamesPlaces.all (fun e he => iha e (List.mem_append_left _ he)) hidden
      have hv := iha value (List.mem_append_right _ (List.mem_singleton_self value)) hidden
      dsimp only at ha hv
      rw [Global.rename, Global.occurrences, Global.occurrences, List.map_append, ha, hv]
    | cardinality args values counts =>
      have ha := RenamesPlaces.all (fun e he => iha e (List.mem_append_left _ he)) hidden
      have hc := RenamesPlaces.all (fun e he => iha e (List.mem_append_right _ he)) hidden
      dsimp only at ha hc
      rw [Global.rename, Global.occurrences, Global.occurrences, List.map_append, ha, hc]
    | named name args => exact RenamesPlaces.all iha hidden
    | defined name args constraints newVars =>
      have ha := RenamesPlaces.all iha hidden
      have hm := RenamesPlaces.all ihm (hidden ++ newVars.map Var.toVarKey)
      have hkeys : (newVars.map (Var.rename ρ)).map Var.toVarKey = newVars.map Var.toVarKey := by
        simp [Function.comp_def]
      dsimp only [Global.args, Global.members] at ha hm
      rw [Global.rename, Global.occurrences, Global.occurrences, List.map_append, hkeys, ha, hm]

theorem varsOf_rename (es : List Expr) :
    varsOf (es.map (Expr.rename ρ)) = (varsOf es).map (Var.rename ρ) := by
  unfold varsOf
  rw [← firstOfEach_map_rename, ← renameAll_eq_map]
  exact congrArg firstOfEach (RenamesPlaces.all (fun e _ => occurrences_rename e) [])

theorem Model.vars_rename (m : Model) : (m.rename ρ).vars = m.vars.map (Var.rename ρ) := by
  unfold vars
  rw [← varsOf_rename]
  refine congrArg varsOf ?_
  unfold roots
  rw [List.map_append]
  cases m with
  | mk name constraints objective => cases objective <;> rfl

/-! ## Conjunctions and decompositions -/

theorem pairwise_rename {f f' : Expr → Expr → Expr}
    (h : ∀ a b, f' (a.rename ρ) (b.rename ρ) = (f a b).rename ρ) (es : List Expr) :
    pairwise f' (es.map (Expr.rename ρ)) = (pairwise f es).map (Expr.rename ρ) := by
  induction es with
  | nil => rfl
  | cons e es ih =>
    rw [List.map_cons, pairwise, pairwise, List.map_append, ih, List.map_map, List.map_map]
    simp only [Function.comp_def, h]

theorem consecutive_rename {f f' : Expr → Expr → Expr}
    (h : ∀ a b, f' (a.rename ρ) (b.rename ρ) = (f a b).rename ρ) (es : List Expr) :
    consecutive f' (es.map (Expr.rename ρ)) = (consecutive f es).map (Expr.rename ρ) := by
  unfold consecutive
  rw [← List.map_tail, List.zipWith_map, List.map_zipWith]
  simp only [h]

theorem circuitDecomposition_rename (n : Nat) (args : List Expr) :
    circuitDecomposition n (args.map (Expr.rename ρ)) = (circuitDecomposition n args).rename ρ := by
  cases args with
  | nil => rfl
  | cons first rest =>
    simp [circuitDecomposition, Decomposition.rename, Expr.rename, Global.rename, renameAll,
      renameAll_eq_map, Expr.equals, Function.comp_def]

theorem decompose_rename (n : Nat) (g : Global) :
    (g.rename ρ).decompose n = (g.decompose n).map (Decomposition.rename ρ) := by
  cases g with
  | plain kind args =>
    rw [Global.rename, renameAll_eq_map]
    cases kind with
    | allDifferent =>
      have hdiffers : ∀ a b : Expr, (a.rename ρ).differs (b.rename ρ) = (a.differs b).rename ρ :=
        fun _ _ => rfl
      simp only [Global.decompose, pairwise_rename hdiffers]
      rfl
    | allDifferentExceptZero =>
      simp only [Global.decompose]
      rw [pairwise_rename (ρ := ρ) (f := fun a b =>
        (Expr.all [a.differs (.const 0), b.differs (.const 0)]).implies (a.differs b))]
      · rfl
      · exact fun _ _ => rfl
    | allEqual =>
      have hequals : ∀ a b : Expr, (a.rename ρ).equals (b.rename ρ) = (a.equals b).rename ρ :=
        fun _ _ => rfl
      simp only [Global.decompose, consecutive_rename hequals]
      rfl
    | circuit => exact congrArg some (circuitDecomposition_rename n args)
    | min => rfl
    | max => rfl
  | count args value => rfl
  | cardinality args values counts =>
    simp [Global.rename, Global.decompose, Decomposition.rename, renameAll_eq_map,
      List.zipWith_map_right, List.map_zipWith, Expr.rename, Expr.equals]
  | named name args => rfl
  | defined name args constraints newVars =>
    simp [Global.rename, Global.decompose, Decomposition.rename, renameAll_eq_map]

/-! ## Maps that keep forms -/

/-- A map on variables, expressions and globals that keeps the form of each, and which variables are
truth values: a renaming, or no change at all. -/
structure Relabeling where
  var : Var → Var
  expr : Expr → Expr
  global : Global → Global
  isBool_var : ∀ v, (var v).isBool = v.isBool
  expr_const : ∀ c, expr (.const c) = .const c
  expr_var : ∀ v, expr (.var v) = .var (var v)
  expr_complement : ∀ v, expr (.complement v) = .complement (var v)
  expr_list : ∀ items, expr (.list items) = .list (items.map expr)
  expr_op : ∀ o args, expr (.op o args) = .op o (args.map expr)
  expr_compare : ∀ c lhs rhs, expr (.compare c lhs rhs) = .compare c (expr lhs) (expr rhs)
  expr_element : ∀ array index,
    expr (.element array index) = .element (array.map expr) (expr index)
  expr_global : ∀ g, expr (.global g) = .global (global g)
  global_plain : ∀ kind args, global (.plain kind args) = .plain kind (args.map expr)
  global_count : ∀ args value, global (.count args value) = .count (args.map expr) (expr value)
  global_cardinality : ∀ args values counts,
    global (.cardinality args values counts) = .cardinality (args.map expr) values (counts.map expr)
  global_named : ∀ name args, global (.named name args) = .named name (args.map expr)
  global_defined : ∀ name args constraints newVars,
    global (.defined name args constraints newVars) =
      .defined name (args.map expr) (constraints.map expr) (newVars.map var)

namespace Relabeling

attribute [simp] expr_const expr_var expr_complement expr_list expr_op expr_compare expr_element
  expr_global global_plain global_count global_cardinality global_named global_defined

/-- Everything stays as it is. -/
def identity : Relabeling where
  var := id
  expr := id
  global := id
  isBool_var _ := rfl
  expr_const _ := rfl
  expr_var _ := rfl
  expr_complement _ := rfl
  expr_list _ := by simp
  expr_op _ _ := by simp
  expr_compare _ _ _ := rfl
  expr_element _ _ := by simp
  expr_global _ := rfl
  global_plain _ _ := by simp
  global_count _ _ := by simp
  global_cardinality _ _ _ := by simp
  global_named _ _ := by simp
  global_defined _ _ _ _ := by simp

/-- Declared variables get new names. -/
def ofNames (ρ : VarKey → String) : Relabeling where
  var := Var.rename ρ
  expr := Expr.rename ρ
  global := Global.rename ρ
  isBool_var := Var.isBool_rename
  expr_const _ := rfl
  expr_var _ := rfl
  expr_complement _ := rfl
  expr_list items := by rw [Expr.rename, renameAll_eq_map]
  expr_op o args := by rw [Expr.rename, renameAll_eq_map]
  expr_compare _ _ _ := rfl
  expr_element array index := by rw [Expr.rename, renameAll_eq_map]
  expr_global _ := rfl
  global_plain kind args := by rw [Global.rename, renameAll_eq_map]
  global_count args value := by rw [Global.rename, renameAll_eq_map]
  global_cardinality args values counts := by
    rw [Global.rename, renameAll_eq_map, renameAll_eq_map]
  global_named name args := by rw [Global.rename, renameAll_eq_map]
  global_defined name args constraints newVars := by
    rw [Global.rename, renameAll_eq_map, renameAll_eq_map]

variable (F : Relabeling)

theorem isSome_asBoolLiteral (e : Expr) :
    (F.expr e).asBoolLiteral.isSome = e.asBoolLiteral.isSome := by
  cases e with
  | var v =>
    rw [F.expr_var, Expr.asBoolLiteral, Expr.asBoolLiteral, F.isBool_var]
    cases v.isBool <;> rfl
  | _ => simp [Expr.asBoolLiteral]

theorem operands_expr (o : Operator) (e : Expr) :
    (F.expr e).operands o = (e.operands o).map F.expr := by
  cases e with
  | op inner args =>
    rw [F.expr_op, Expr.operands, Expr.operands]
    split
    · rfl
    · rw [List.map_singleton, F.expr_op]
  | _ => simp [Expr.operands]

theorem expr_nary (o : Operator) (es : List Expr) :
    F.expr (Expr.nary o es) = Expr.nary o (es.map F.expr) := by
  unfold Expr.nary
  rw [F.expr_op, List.flatMap_map, List.map_flatMap]
  simp only [F.operands_expr]

end Relabeling

end Linearization
