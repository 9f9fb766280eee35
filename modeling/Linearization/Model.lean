import Linearization.Direction
import Linearization.Expr.Render
import Linearization.Expr.Traversal

/-!
# Models

A model is a list of constraints and at most one objective; its variables are found in them.
`problems` lists everything that is wrong with its domains and with the shape of its expressions.
The decompositions that constraints come with are searched for variables but not checked.
-/

namespace Linearization

/-- An expression to be made small or large. -/
structure Objective where
  direction : Direction
  expr : Expr

/-- A constraint model. -/
structure Model where
  name : String := ""
  constraints : List Expr := []
  objective : Option Objective := none

/-- Something wrong with a model. -/
inductive Problem where
  | emptyDomain (v : Var) (lower upper : Int)
  | complementOfInteger (v : Var)
  | arity (o : Operator) (expected : Nat) (args : List Expr)
  | emptyArray (element : Expr)
  | noArguments (function : Expr)
  | cardinality (values counts : Nat)

namespace Problem

def message : Problem → String
  | emptyDomain v lower upper =>
    s!"Variable '{v.name}' has lower bound ({lower}) > upper bound ({upper})"
  | complementOfInteger v => s!"Negated view of non-boolean variable '{v.name}'"
  | arity o expected args =>
    let count := s!"expects {expected} arguments, got {args.length}"
    s!"Operator '{o.name}' {count} in {(Expr.op o args).render}"
  | emptyArray e => s!"Element over an empty array: {e.render}"
  | noArguments e => s!"Global function without arguments: {e.render}"
  | cardinality values counts => s!"gcc has {values} values but {counts} counts"

end Problem

/-- What is wrong with a node, apart from its subexpressions. -/
def Expr.problem? : Expr → Option Problem
  | .complement v => if v.isBool then none else some (.complementOfInteger v)
  | .op o args =>
    match o.arity with
    | some expected => if args.length = expected then none else some (.arity o expected args)
    | none => none
  | .element [] index => some (.emptyArray (.element [] index))
  | .global (.plain .min []) => some (.noArguments (.global (.plain .min [])))
  | .global (.plain .max []) => some (.noArguments (.global (.plain .max [])))
  | .global (.cardinality _ values counts) =>
    if values.length = counts.length then none
    else some (.cardinality values.length counts.length)
  | _ => none

/-- The problem of a variable whose domain has no value. -/
def Var.problem? (v : Var) : Option Problem :=
  match v.domain with
  | .int lower upper => if lower > upper then some (.emptyDomain v lower upper) else none
  | .bool => none

namespace Model

/-- The constraints and then the expression of the objective. -/
def roots (m : Model) : List Expr := m.constraints ++ (m.objective.map Objective.expr).toList

/-- The variables in the order of their first occurrence. -/
def vars (m : Model) : List Var := varsOf m.roots

/-- Everything that is wrong: first the domains, then the nodes in order. -/
def problems (m : Model) : List Problem :=
  m.vars.filterMap Var.problem? ++ (nodesOfAll m.roots).filterMap Expr.problem?

end Model

end Linearization
