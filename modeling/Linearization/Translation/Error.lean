import Linearization.Expr.Render
import Linearization.LoweringError

/-!
# Failures of a translation

An expression without a form in columns and rows is reported together with the reason. The wording
is in `Reason.message` and `TranslationError.message`.
-/

namespace Linearization

/-- Why an expression has no translation. -/
inductive Reason where
  | complementOfInteger
  | arity (o : Operator) (expected actual : Nat)
  | nestedParity
  | variableExponent (exponent : Expr)
  | indexOutOfRange (index : Int)
  | emptyArray
  | indexDomain (lower upper : Int) (last : Nat)
  | noArguments
  | noDecomposition (name : String)
  | lowering (error : LoweringError)

/-- Why a model or an expression could not be translated. -/
inductive TranslationError where
  | untranslatable (e : Expr) (reason : Reason)
  | unregistered (name : String)
  | shapeMismatch (left right : Nat)
  | decompositionDepth (e : Expr) (limit : Nat)
  | fault (cause : Fault)

namespace Reason

def message : Reason → String
  | complementOfInteger => "negated view of a non-boolean variable"
  | arity o expected actual => s!"'{o.name}' expects {expected} arguments, got {actual}"
  | nestedParity => "xor has no subexpression form, post it as a top-level constraint"
  | variableExponent exponent =>
    s!"exponent must be a non-negative constant, got {exponent.render}"
  | indexOutOfRange index => s!"index {index} is out of range"
  | emptyArray => "element of an empty array"
  | indexDomain lower upper last =>
    s!"index domain [{lower}, {upper}] leaves the array bounds [0, {last}]"
  | noArguments => "global function without arguments"
  | noDecomposition name =>
    s!"global constraint '{name}' has no native form and no decomposition"
  | lowering error => error.message

end Reason

namespace TranslationError

/-- The failure of a lowering that was done for an expression. -/
def ofLowering (e : Expr) : LoweringError → TranslationError
  | .fault cause => fault cause
  | error => untranslatable e (.lowering error)

def message : TranslationError → String
  | untranslatable e reason => s!"No translation for `{e.render}`: {reason.message}"
  | unregistered name => s!"Variable `{name}` is referenced before it was registered"
  | shapeMismatch left right => s!"Cannot pair sequences of length {left} and {right}"
  | decompositionDepth e limit =>
    s!"Decomposing `{e.render}` exceeds the nesting limit of {limit}"
  | fault cause => cause.message

end TranslationError

end Linearization
