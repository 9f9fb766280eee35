import Linearization.Expr.Decomposition
import Linearization.Expr.Meaning
import Linearization.Expr.Traversal

/-!
# Induction over expressions

Expressions, globals and their lists are one mutual recursion. `Expr.induction` states its induction
once, with the lists as hypotheses about their members; below it the functions on lists are read as
`map`, `all` and `flatMap` of the functions on expressions.
-/

namespace Linearization

namespace Global

/-- The constraints that a global comes with. -/
def members : Global → List Expr
  | defined _ _ constraints _ => constraints
  | _ => []

/-- The variables that a global comes with. -/
def newVars : Global → List Var
  | defined _ _ _ newVars => newVars
  | _ => []

end Global

section Induction

variable {P : Expr → Prop} (const : ∀ c, P (.const c)) (var : ∀ v, P (.var v))
  (complement : ∀ v, P (.complement v)) (list : ∀ es, (∀ e ∈ es, P e) → P (.list es))
  (op : ∀ o args, (∀ e ∈ args, P e) → P (.op o args))
  (compare : ∀ c lhs rhs, P lhs → P rhs → P (.compare c lhs rhs))
  (element : ∀ array index, (∀ e ∈ array, P e) → P index → P (.element array index))
  (global : ∀ g : Global, (∀ e ∈ g.args, P e) → (∀ e ∈ g.members, P e) → P (.global g))

include const var complement list op compare element global

set_option linter.unusedSectionVars false

mutual

theorem Expr.induction : ∀ e : Expr, P e
  | .const c => const c
  | .var v => var v
  | .complement v => complement v
  | .list items => list items (inductionAll items)
  | .op o args => op o args (inductionAll args)
  | .compare c lhs rhs => compare c lhs rhs (Expr.induction lhs) (Expr.induction rhs)
  | .element array index => element array index (inductionAll array) (Expr.induction index)
  | .global g => global g (Global.induction g).1 (Global.induction g).2
  termination_by structural e => e

theorem Global.induction : ∀ g : Global, (∀ e ∈ g.args, P e) ∧ ∀ e ∈ g.members, P e
  | .plain _ args => ⟨inductionAll args, List.forall_mem_nil _⟩
  | .count args value => by
    refine ⟨fun e he => ?_, List.forall_mem_nil _⟩
    rcases List.mem_append.1 he with he | he
    · exact inductionAll args e he
    · rw [List.mem_singleton.1 he]
      exact Expr.induction value
  | .cardinality args _ counts => by
    refine ⟨fun e he => ?_, List.forall_mem_nil _⟩
    rcases List.mem_append.1 he with he | he
    · exact inductionAll args e he
    · exact inductionAll counts e he
  | .named _ args => ⟨inductionAll args, List.forall_mem_nil _⟩
  | .defined _ args constraints _ => ⟨inductionAll args, inductionAll constraints⟩
  termination_by structural g => g

theorem inductionAll : ∀ es : List Expr, ∀ e ∈ es, P e
  | [], _, he => nomatch he
  | e :: es, d, hd => by
    rcases List.mem_cons.1 hd with h | h
    · rw [h]
      exact Expr.induction e
    · exact inductionAll es d h
  termination_by structural es => es

end

end Induction

/-! ## Functions on lists of expressions -/

theorem valuesOf_eq_map (σ : Valuation) (es : List Expr) :
    valuesOf σ es = es.map (Expr.value? σ) := by
  induction es with
  | nil => rfl
  | cons e es ih => rw [valuesOf, ih, List.map_cons]

theorem holdsAll_iff (σ : Valuation) (es : List Expr) :
    holdsAll σ es = true ↔ ∀ e ∈ es, e.holds σ = true := by
  induction es with
  | nil => simp [holdsAll]
  | cons e es ih => rw [holdsAll, Bool.and_eq_true, ih, List.forall_mem_cons]

theorem mem_occurrencesInAll {hidden : List VarKey} {es : List Expr} {v : Var} :
    v ∈ occurrencesInAll hidden es ↔ ∃ e ∈ es, v ∈ e.occurrences hidden := by
  induction es with
  | nil => simp [occurrencesInAll]
  | cons e es ih =>
    rw [occurrencesInAll, List.mem_append, ih]
    simp

end Linearization
