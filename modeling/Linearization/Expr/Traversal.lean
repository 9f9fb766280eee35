import Linearization.Expr.Basic

/-!
# Nodes and variables

`nodes` lists an expression and its subexpressions, each before its own. It does not enter the
decomposition that a constraint comes with; `vars` does, and leaves out the variables that the
decomposition introduces.
-/

namespace Linearization

mutual

/-- The expression and all its subexpressions, each before its own. -/
def Expr.nodes : Expr → List Expr
  | .const c => [.const c]
  | .var v => [.var v]
  | .complement v => [.complement v]
  | .list items => .list items :: nodesOfAll items
  | .op o args => .op o args :: nodesOfAll args
  | .compare c lhs rhs => .compare c lhs rhs :: (lhs.nodes ++ rhs.nodes)
  | .element array index => .element array index :: (nodesOfAll array ++ index.nodes)
  | .global g => .global g :: g.nodes
  termination_by structural e => e

/-- The subexpressions of a global. -/
def Global.nodes : Global → List Expr
  | .plain _ args => nodesOfAll args
  | .count args value => nodesOfAll args ++ value.nodes
  | .cardinality args _ counts => nodesOfAll args ++ nodesOfAll counts
  | .named _ args => nodesOfAll args
  | .defined _ args _ _ => nodesOfAll args
  termination_by structural g => g

/-- The nodes of several expressions, one after the other. -/
def nodesOfAll : List Expr → List Expr
  | [] => []
  | e :: es => e.nodes ++ nodesOfAll es
  termination_by structural es => es

end

mutual

/-- The places where a variable that is not hidden occurs, in the order of `nodes`; the
decomposition that a constraint comes with is searched before its arguments. -/
def Expr.occurrences (hidden : List VarKey) : Expr → List Var
  | .const _ => []
  | .var v => if v.toVarKey ∈ hidden then [] else [v]
  | .complement v => if v.toVarKey ∈ hidden then [] else [v]
  | .list items => occurrencesInAll hidden items
  | .op _ args => occurrencesInAll hidden args
  | .compare _ lhs rhs => lhs.occurrences hidden ++ rhs.occurrences hidden
  | .element array index => occurrencesInAll hidden array ++ index.occurrences hidden
  | .global g => g.occurrences hidden
  termination_by structural e => e

/-- The occurrences in a global. -/
def Global.occurrences (hidden : List VarKey) : Global → List Var
  | .plain _ args => occurrencesInAll hidden args
  | .count args value => occurrencesInAll hidden args ++ value.occurrences hidden
  | .cardinality args _ counts => occurrencesInAll hidden args ++ occurrencesInAll hidden counts
  | .named _ args => occurrencesInAll hidden args
  | .defined _ args constraints newVars =>
    occurrencesInAll (hidden ++ newVars.map Var.toVarKey) constraints ++
      occurrencesInAll hidden args
  termination_by structural g => g

/-- The occurrences in several expressions, one after the other. -/
def occurrencesInAll (hidden : List VarKey) : List Expr → List Var
  | [] => []
  | e :: es => e.occurrences hidden ++ occurrencesInAll hidden es
  termination_by structural es => es

end

/-- The first of each group of variables with the same identity. -/
def firstOfEach : List Var → List Var
  | [] => []
  | v :: vs => v :: (firstOfEach vs).filter (fun w => w.toVarKey ≠ v.toVarKey)

/-- The variables of several expressions, in the order of their first occurrence. -/
def varsOf (es : List Expr) : List Var := firstOfEach (occurrencesInAll [] es)

/-- The variables of an expression, in the order of their first occurrence. -/
def Expr.vars (e : Expr) : List Var := varsOf [e]

end Linearization
