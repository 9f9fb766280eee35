import Linearization.Expr.Basic

/-!
# The text of expressions

Binary operators stand between their sides, which are bracketed. Everything else is a name with its
arguments; an operator with another number of arguments than it takes is shown that way too.
-/

namespace Linearization

/-- Texts separated by commas. -/
def commaSeparated (items : List String) : String := ", ".intercalate items

/-- A name with its arguments. -/
def renderCall (name : String) (args : List String) : String := s!"{name}({commaSeparated args})"

/-- Texts as a bracketed list. -/
def renderList (items : List String) : String := s!"[{commaSeparated items}]"

/-- An operator applied to the texts of its arguments. -/
def Operator.render (o : Operator) (args : List String) : String :=
  match o, args with
  | .neg, [a] => s!"-({a})"
  | .implies, [a, b] => s!"({a}) -> ({b})"
  | .sub, [a, b] => s!"({a}) - ({b})"
  | .mul, [a, b] => s!"({a}) * ({b})"
  | .div, [a, b] => s!"({a}) div ({b})"
  | .mod, [a, b] => s!"({a}) mod ({b})"
  | .pow, [a, b] => s!"({a}) ** ({b})"
  | _, _ => renderCall o.name args

mutual

def Expr.render : Expr → String
  | .const c => toString c
  | .var v => v.name
  | .complement v => s!"~{v.name}"
  | .list items => renderList (renderAll items)
  | .op o args => o.render (renderAll args)
  | .compare c lhs rhs => s!"({lhs.render}) {c.symbol} ({rhs.render})"
  | .element array index => s!"{renderList (renderAll array)}[{index.render}]"
  | .global g => g.render
  termination_by structural e => e

def Global.render : Global → String
  | .plain kind args => renderCall kind.name (renderAll args)
  | .count args value => renderCall "count" [renderList (renderAll args), value.render]
  | .cardinality args values counts =>
    renderCall "gcc"
      [renderList (renderAll args), renderList (values.map toString), renderList (renderAll counts)]
  | .named name args => renderCall name (renderAll args)
  | .defined name args _ _ => renderCall name (renderAll args)
  termination_by structural g => g

/-- The texts of several expressions. -/
def renderAll : List Expr → List String
  | [] => []
  | e :: es => e.render :: renderAll es
  termination_by structural es => es

end

end Linearization
