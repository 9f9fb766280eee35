/-!
# Operators

The arithmetic and boolean operators of expressions. Some take exactly one or two arguments, the
others any number.
-/

namespace Linearization

/-- An operator of the expression language. -/
inductive Operator where
  | and | or | xor | implies
  | neg | abs | sub | mul | div | mod | pow | sum
  deriving DecidableEq, Repr

namespace Operator

/-- The name, as it is shown in front of arguments. -/
def name : Operator → String
  | and => "and"
  | or => "or"
  | xor => "xor"
  | implies => "->"
  | neg => "-"
  | abs => "abs"
  | sub => "sub"
  | mul => "mul"
  | div => "div"
  | mod => "mod"
  | pow => "pow"
  | sum => "sum"

/-- The exact number of arguments, for operators that have one. -/
def arity : Operator → Option Nat
  | and | or | xor | sum => none
  | neg | abs => some 1
  | implies | sub | mul | div | mod | pow => some 2

end Operator

end Linearization
