import Linearization.Expr.Basic
import Linearization.Position

/-!
# What expressions mean

`Expr.value? σ` is the exact integer that an expression has when the variables have the values `σ`;
a position outside an array, a division by zero or a list as an integer has none. `Expr.holds σ` is
the truth of an expression as a constraint: lists, conjunctions and comparisons of lists, also those
that a global constraint makes of its arguments, hold item by item, a global function holds whatever
its value, and a constraint that comes with a decomposition holds when the introduced variables can
be chosen from their domains so that every member holds.
-/

namespace Linearization

/-- A value for every variable. -/
abbrev Valuation := VarKey → Int

/-- The integer of a truth value. -/
def ofTruth (b : Bool) : Int := if b then 1 else 0

namespace Valuation

/-- The valuation with another value for one variable. -/
def update (σ : Valuation) (k : VarKey) (value : Int) : Valuation :=
  fun l => if l = k then value else σ l

/-- The valuation gives every listed variable a value of its domain. -/
def InDomain (σ : Valuation) (vs : List Var) : Prop := ∀ v ∈ vs, v.domain.Admits (σ v.toVarKey)

instance (σ : Valuation) (vs : List Var) : Decidable (σ.InDomain vs) :=
  inferInstanceAs (Decidable (∀ v ∈ vs, v.domain.Admits (σ v.toVarKey)))

/-- The valuations that give the listed variables values of their domains and are the same
elsewhere. -/
def extensions (σ : Valuation) : List Var → List Valuation
  | [] => [σ]
  | v :: vs =>
    (List.range (v.domain.upper - v.domain.lower + 1).toNat).flatMap fun (i : Nat) =>
      (σ.update v.toVarKey (v.domain.lower + i)).extensions vs

end Valuation

/-- Both integers are defined, and they are in the relation. -/
def Comparison.holds? (c : Comparison) : Option Int → Option Int → Bool
  | some a, some b => c.Holds a b
  | _, _ => false

/-- The comparison holds item by item; a side with one item is used against every item of the other.
-/
def Comparison.holdsItemwise (c : Comparison) : List (Option Int) → List (Option Int) → Bool
  | [a], bs => bs.all (c.holds? a ·)
  | as, [b] => as.all (c.holds? · b)
  | as, bs => as.length = bs.length && (as.zipWith c.holds? bs).all id

/-- The value of an operator applied to integers. -/
def Operator.apply : Operator → List Int → Option Int
  | and, vs => some (ofTruth (vs.all (· ≠ 0)))
  | or, vs => some (ofTruth (vs.any (· ≠ 0)))
  | xor, vs => some (ofTruth ((vs.countP (· ≠ 0)) % 2 = 1))
  | implies, [a, b] => some (ofTruth (a = 0 || b ≠ 0))
  | neg, [a] => some (-a)
  | abs, [a] => some a.natAbs
  | sub, [a, b] => some (a - b)
  | mul, [a, b] => some (a * b)
  | div, [a, b] => if b = 0 then none else some (a.tdiv b)
  | mod, [a, b] => if b = 0 then none else some (a.tmod b)
  | pow, [a, b] => if b < 0 then none else some (a.pow b.toNat)
  | sum, vs => some (vs.foldr (· + ·) 0)
  | _, _ => none

/-- The relation holds between each item and each later one. -/
def everyPair {α : Type} (r : α → α → Bool) : List α → Bool
  | [] => true
  | a :: as => as.all (r a) && everyPair r as

/-- The relation holds between each item and the next. -/
def everyStep {α : Type} (r : α → α → Bool) (as : List α) : Bool :=
  (as.zipWith r as.tail).all id

/-- The nodes visited from node 0 by following so many successors. -/
def walk (successors : List Int) : Nat → Int → List Int
  | 0, _ => []
  | steps + 1, node => node :: walk successors steps ((itemAt? successors node).getD (-1))

/-- The successors form one cycle through all nodes: their numbers are those of the nodes, no node
is the successor of two, and the walk from node 0 visits every node. -/
def isCircuit (successors : List Int) : Bool :=
  let nodes : List Int := (List.range successors.length).map Int.ofNat
  successors.all (nodes.contains ·) && everyPair (· ≠ ·) successors &&
    nodes.all ((walk successors successors.length 0).contains ·)

/-- The number of arguments equal to a value. -/
def countOf (args : List (Option Int)) (value : Option Int) : Option Int := do
  let hits ← args.mapM fun a => do return ofTruth ((← a) = (← value))
  return hits.foldr (· + ·) 0

/-- The value of a global that is given by its arguments alone. -/
def GlobalKind.apply : GlobalKind → List (Option Int) → Option Int
  | allDifferent, vs => some (ofTruth (everyPair (Comparison.ne.holds? · ·) vs))
  | allDifferentExceptZero, vs =>
    let apart (a b : Option Int) : Bool := !Comparison.eq.holds? a b || a == some 0
    some (ofTruth (everyPair apart vs))
  | allEqual, vs => some (ofTruth (everyStep (Comparison.eq.holds? · ·) vs))
  | circuit, vs => (vs.mapM id).map fun vs => ofTruth (isCircuit vs)
  | min, vs => (vs.mapM id).bind fun vs => vs.min?
  | max, vs => (vs.mapM id).bind fun vs => vs.max?

/-- Each count is the number of arguments equal to the value at its place. -/
def countsHold (args : List (Option Int)) (values : List Int) (counts : List (Option Int)) : Bool :=
  (values.zip counts).all fun (value, count) =>
    Comparison.eq.holds? count (countOf args (some value))

mutual

/-- The exact value of an expression, where it has one. -/
def Expr.value? (σ : Valuation) : Expr → Option Int
  | .const c => some c
  | .var v => some (σ v.toVarKey)
  | .complement v => some (1 - σ v.toVarKey)
  | .list _ => none
  | .op o args => do o.apply (← (valuesOf σ args).mapM id)
  | .compare c lhs rhs => do
    let a ← lhs.value? σ
    let b ← rhs.value? σ
    return ofTruth (c.Holds a b)
  | .element array index => do (← itemAt? (valuesOf σ array) (← index.value? σ))
  | .global g => g.value? σ
  termination_by structural e => e

/-- The exact value of a global. -/
def Global.value? (σ : Valuation) : Global → Option Int
  | .plain kind args => kind.apply (valuesOf σ args)
  | .count args value => countOf (valuesOf σ args) (value.value? σ)
  | .cardinality args values counts =>
    some (ofTruth (countsHold (valuesOf σ args) values (valuesOf σ counts)))
  | .named _ _ => none
  | .defined _ _ constraints newVars =>
    some (ofTruth ((σ.extensions newVars).any fun τ =>
      (valuesOf τ constraints).all (Option.any (· ≠ 0))))
  termination_by structural g => g

/-- The exact values of several expressions. -/
def valuesOf (σ : Valuation) : List Expr → List (Option Int)
  | [] => []
  | e :: es => e.value? σ :: valuesOf σ es
  termination_by structural es => es

end

namespace Expr

/-- The expression has a value other than zero. -/
def isTrue (σ : Valuation) (e : Expr) : Bool := (e.value? σ).any (· ≠ 0)

/-- The items of a list; any other expression is its own only item. -/
def items : Expr → List Expr
  | list items => items
  | e => [e]

/-- The values of the items. -/
def itemValues (σ : Valuation) (e : Expr) : List (Option Int) := valuesOf σ e.items

end Expr

mutual

/-- The expression holds as a constraint. -/
def Expr.holds (σ : Valuation) : Expr → Bool
  | .const c => c ≠ 0
  | .var v => (Expr.var v).isTrue σ
  | .complement v => (Expr.complement v).isTrue σ
  | .list items => holdsAll σ items
  | .op o args =>
    match o, args with
    | .implies, [a, b] => !a.isTrue σ || b.holds σ
    | .and, args => holdsAll σ args
    | o, args => (Expr.op o args).isTrue σ
  | .compare c lhs rhs => c.holdsItemwise (lhs.itemValues σ) (rhs.itemValues σ)
  | .element array index => (Expr.element array index).isTrue σ
  | .global g => g.holds σ
  termination_by structural e => e

/-- The global holds as a constraint. -/
def Global.holds (σ : Valuation) : Global → Bool
  | .plain kind args =>
    match kind with
    | .min | .max => true
    | .allDifferent =>
      (valuesOf σ args).all Option.isSome && (Expr.global (.plain .allDifferent args)).isTrue σ
    | .allEqual => everyStep Comparison.eq.holdsItemwise (args.map (Expr.itemValues σ))
    | kind => (Expr.global (.plain kind args)).isTrue σ
  | .count _ _ => true
  | .cardinality args values counts =>
    (values.zip counts).all fun (value, count) =>
      Comparison.eq.holdsItemwise (count.itemValues σ) [countOf (valuesOf σ args) (some value)]
  | .named _ _ => false
  | .defined _ _ constraints newVars =>
    (σ.extensions newVars).any fun τ => holdsAll τ constraints
  termination_by structural g => g

/-- Every expression holds as a constraint. -/
def holdsAll (σ : Valuation) : List Expr → Bool
  | [] => true
  | e :: es => e.holds σ && holdsAll σ es
  termination_by structural es => es

end

end Linearization
