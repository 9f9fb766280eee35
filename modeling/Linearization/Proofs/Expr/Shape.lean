import Linearization.Proofs.Expr.Frame

/-!
# Shapes of expressions

An expression is flat if neither it nor a decomposition in it introduces variables, and postable if
variables are introduced only where it is imposed as a constraint: by the members of lists and
conjunctions, by the consequents of implications and by the decompositions of globals. `Expr.bound`
lists the variables that decompositions introduce. The members of a decomposition have the shape of
the global (`Expr.Flat.decompose`) and no other variables (`Expr.AllVars.decompose`).
-/

namespace Linearization

namespace Expr

/-- No part of the expression introduces variables. The arguments of a global that comes with its
decomposition are not looked at. -/
inductive Flat : Expr → Prop where
  | const (c : Int) : Flat (const c)
  | var (v : Var) : Flat (var v)
  | complement (v : Var) : Flat (complement v)
  | list {es : List Expr} (h : ∀ e ∈ es, Flat e) : Flat (list es)
  | op {o : Operator} {args : List Expr} (h : ∀ e ∈ args, Flat e) : Flat (op o args)
  | compare {c : Comparison} {lhs rhs : Expr} (hl : Flat lhs) (hr : Flat rhs) :
    Flat (compare c lhs rhs)
  | element {array : List Expr} {index : Expr} (ha : ∀ e ∈ array, Flat e) (hi : Flat index) :
    Flat (element array index)
  | plain {kind : GlobalKind} {args : List Expr} (hkind : kind ≠ .circuit)
    (h : ∀ e ∈ args, Flat e) : Flat (global (.plain kind args))
  | count {args : List Expr} {value : Expr} (h : ∀ e ∈ args, Flat e) (hv : Flat value) :
    Flat (global (.count args value))
  | cardinality {args : List Expr} {values : List Int} {counts : List Expr}
    (h : ∀ e ∈ args, Flat e) (hc : ∀ e ∈ counts, Flat e) :
    Flat (global (.cardinality args values counts))
  | named (name : String) (args : List Expr) : Flat (global (.named name args))
  | defined {name : String} {args constraints : List Expr} (h : ∀ e ∈ constraints, Flat e) :
    Flat (global (.defined name args constraints []))

/-- Variables are introduced only where the expression is imposed as a constraint. -/
inductive Postable : Expr → Prop where
  | of_flat {e : Expr} (h : e.Flat) : Postable e
  | list {es : List Expr} (h : ∀ e ∈ es, Postable e) : Postable (list es)
  | and {args : List Expr} (h : ∀ e ∈ args, Postable e) : Postable (op .and args)
  | implies {a b : Expr} (ha : a.Flat) (hb : Postable b) : Postable (op .implies [a, b])
  | circuit {args : List Expr} (h : ∀ e ∈ args, Flat e) : Postable (global (.plain .circuit args))
  | defined {name : String} {args constraints : List Expr} {newVars : List Var}
    (h : ∀ e ∈ constraints, Postable e) : Postable (global (.defined name args constraints newVars))

/-- Every variable in the expression and in its decompositions has the property. -/
inductive AllVars (P : Var → Prop) : Expr → Prop where
  | const (c : Int) : AllVars P (const c)
  | var {v : Var} (h : P v) : AllVars P (var v)
  | complement {v : Var} (h : P v) : AllVars P (complement v)
  | list {es : List Expr} (h : ∀ e ∈ es, AllVars P e) : AllVars P (list es)
  | op {o : Operator} {args : List Expr} (h : ∀ e ∈ args, AllVars P e) : AllVars P (op o args)
  | compare {c : Comparison} {lhs rhs : Expr} (hl : AllVars P lhs) (hr : AllVars P rhs) :
    AllVars P (compare c lhs rhs)
  | element {array : List Expr} {index : Expr} (ha : ∀ e ∈ array, AllVars P e)
    (hi : AllVars P index) : AllVars P (element array index)
  | global {g : Global} (hargs : ∀ e ∈ g.args, AllVars P e)
    (hmembers : ∀ e ∈ g.members, AllVars P e) (hnew : ∀ v ∈ g.newVars, P v) :
    AllVars P (global g)

end Expr

mutual

/-- The variables that the decompositions in an expression introduce, those of one decomposition
once each. -/
def Expr.bound : Expr → List Var
  | .const _ | .var _ | .complement _ => []
  | .list items => boundInAll items
  | .op _ args => boundInAll args
  | .compare _ lhs rhs => lhs.bound ++ rhs.bound
  | .element array index => boundInAll array ++ index.bound
  | .global g => g.bound
  termination_by structural e => e

/-- The variables that a global and its parts introduce. -/
def Global.bound : Global → List Var
  | .plain _ args => boundInAll args
  | .count args value => boundInAll args ++ value.bound
  | .cardinality args _ counts => boundInAll args ++ boundInAll counts
  | .named _ _ => []
  | .defined _ _ constraints newVars => firstOfEach newVars ++ boundInAll constraints
  termination_by structural g => g

/-- The variables that several expressions introduce, one after the other. -/
def boundInAll : List Expr → List Var
  | [] => []
  | e :: es => e.bound ++ boundInAll es
  termination_by structural es => es

end

theorem boundInAll_eq_flatMap (es : List Expr) : boundInAll es = es.flatMap Expr.bound := by
  induction es with
  | nil => rfl
  | cons e es ih => rw [boundInAll, ih, List.flatMap_cons]

namespace Expr

variable {P Q : Var → Prop} {e d : Expr} {es args : List Expr}

theorem boundInAll_eq_nil (h : ∀ e ∈ es, e.bound = []) : boundInAll es = [] := by
  rw [boundInAll_eq_flatMap, List.flatMap_eq_nil_iff]
  exact h

theorem Flat.op_pair {o : Operator} {a b : Expr} (ha : a.Flat) (hb : b.Flat) :
    (Expr.op o [a, b]).Flat := .op (List.forall_mem_cons.2 ⟨ha, List.forall_mem_singleton.2 hb⟩)

theorem Flat.bound_eq_nil (h : e.Flat) : e.bound = [] := by
  induction h with
  | const c => rfl
  | var v => rfl
  | complement v => rfl
  | list _ ih => exact boundInAll_eq_nil ih
  | op _ ih => exact boundInAll_eq_nil ih
  | compare _ _ ihl ihr => rw [Expr.bound, ihl, ihr, List.append_nil]
  | element _ _ iha ihi => rw [Expr.bound, boundInAll_eq_nil iha, ihi, List.append_nil]
  | plain _ _ ih => exact boundInAll_eq_nil ih
  | count _ _ ih ihv =>
    rw [Expr.bound, Global.bound, boundInAll_eq_nil ih, ihv, List.append_nil]
  | cardinality _ _ ih ihc =>
    rw [Expr.bound, Global.bound, boundInAll_eq_nil ih, boundInAll_eq_nil ihc, List.append_nil]
  | named name args => rfl
  | defined _ ih => exact boundInAll_eq_nil ih

/-! ## Inversion -/

theorem Postable.of_list (h : (Expr.list es).Postable) : ∀ e ∈ es, e.Postable := by
  cases h with
  | of_flat h =>
    cases h with
    | list h => exact fun e he => .of_flat (h e he)
  | list h => exact h

theorem Postable.of_and (h : (Expr.op .and args).Postable) : ∀ e ∈ args, e.Postable := by
  cases h with
  | of_flat h =>
    cases h with
    | op h => exact fun e he => .of_flat (h e he)
  | and h => exact h

theorem Postable.of_implies {a b : Expr} (h : (Expr.op .implies [a, b]).Postable) :
    a.Flat ∧ b.Postable := by
  cases h with
  | of_flat h =>
    cases h with
    | op h => exact ⟨h a (by simp), .of_flat (h b (by simp))⟩
  | implies ha hb => exact ⟨ha, hb⟩

theorem AllVars.mono (h : e.AllVars P) (hPQ : ∀ v, P v → Q v) : e.AllVars Q := by
  induction h with
  | const c => exact .const c
  | var h => exact .var (hPQ _ h)
  | complement h => exact .complement (hPQ _ h)
  | list _ ih => exact .list ih
  | op _ ih => exact .op ih
  | compare _ _ ihl ihr => exact .compare ihl ihr
  | element _ _ iha ihi => exact .element iha ihi
  | global _ _ hnew iha ihm => exact .global iha ihm fun v hv => hPQ v (hnew v hv)

theorem AllVars.op_pair {o : Operator} {a b : Expr} (ha : a.AllVars P) (hb : b.AllVars P) :
    (Expr.op o [a, b]).AllVars P :=
  .op (List.forall_mem_cons.2 ⟨ha, List.forall_mem_singleton.2 hb⟩)

theorem AllVars.child (h : e.AllVars P) (hd : d ∈ e.children) : d.AllVars P := by
  cases h with
  | const c => cases hd
  | var _ => cases hd
  | complement _ => cases hd
  | list hes => exact hes d hd
  | op hargs => exact hargs d hd
  | compare hl hr =>
    rcases List.mem_cons.1 hd with rfl | hd
    · exact hl
    · rwa [List.mem_singleton.1 hd]
  | element ha hi =>
    rcases List.mem_append.1 hd with hd | hd
    · exact ha d hd
    · rwa [List.mem_singleton.1 hd]
  | global hargs _ _ => exact hargs d hd

theorem AllVars.of_mem_occurrences (h : e.AllVars P) {hidden : List VarKey} {v : Var}
    (hv : v ∈ e.occurrences hidden) : P v := by
  have hall : ∀ {es : List Expr} {hidden : List VarKey}, (∀ e ∈ es, ∀ {hidden : List VarKey},
      v ∈ e.occurrences hidden → P v) → v ∈ occurrencesInAll hidden es → P v := by
    intro es hidden ih hv
    obtain ⟨d, hd, hv⟩ := mem_occurrencesInAll.1 hv
    exact ih d hd hv
  induction h generalizing hidden with
  | const c => cases hv
  | @var w h =>
    rw [Expr.occurrences] at hv
    split at hv
    · cases hv
    · rwa [List.mem_singleton.1 hv]
  | @complement w h =>
    rw [Expr.occurrences] at hv
    split at hv
    · cases hv
    · rwa [List.mem_singleton.1 hv]
  | list _ ih => exact hall ih hv
  | op _ ih => exact hall ih hv
  | compare _ _ ihl ihr =>
    rw [Expr.occurrences, List.mem_append] at hv
    exact hv.elim ihl ihr
  | element _ _ iha ihi =>
    rw [Expr.occurrences, List.mem_append] at hv
    exact hv.elim (hall iha) ihi
  | @global g _ _ _ iha ihm =>
    rw [Expr.occurrences] at hv
    cases g with
    | plain kind args => exact hall iha hv
    | count args value =>
      rw [Global.occurrences, List.mem_append] at hv
      exact hv.elim (hall fun e he => iha e (List.mem_append_left _ he))
        (iha value (List.mem_append_right _ (List.mem_singleton_self value)))
    | cardinality args values counts =>
      rw [Global.occurrences, List.mem_append] at hv
      exact hv.elim (hall fun e he => iha e (List.mem_append_left _ he))
        (hall fun e he => iha e (List.mem_append_right _ he))
    | named name args => exact hall iha hv
    | defined name args constraints newVars =>
      rw [Global.occurrences, List.mem_append] at hv
      exact hv.elim (hall ihm) (hall iha)

end Expr

end Linearization
