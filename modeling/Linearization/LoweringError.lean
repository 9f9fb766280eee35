import Linearization.Word

/-!
# Failures of a lowering

A lowering either expresses its construct with columns and rows, or says why it cannot. The causes
are kept apart from their wording, which is `LoweringError.message`.
-/

namespace Linearization

/-- An operation outside its domain, for which nothing was provided. A list of more values than an
address space holds is one that a large enumeration limit lets through. -/
inductive Fault where
  | zeroDivisor
  | missingColumn (index : Nat)
  /-- An operator has fewer arguments than it uses. -/
  | missingArgument (count : Nat)
  /-- The result of an operation that is not checked leaves the range of a word. -/
  | notWord (value : Int)
  /-- A list is to be allocated that no address space holds. -/
  | capacity (size : Nat)
  deriving DecidableEq, Repr

namespace Fault

def message : Fault → String
  | zeroDivisor => "attempt to divide by zero"
  | missingColumn index => s!"no column has index {index}"
  | missingArgument count => s!"no argument has index {count}"
  | notWord value => s!"attempt to compute {value} as a word"
  | capacity _ => "capacity overflow"

end Fault

/-- Why a construct has no form in columns and rows. -/
inductive LoweringError where
  /-- An integer whose bounds leave `{0, 1}` stands where a truth value is needed. -/
  | notBoolean (lower upper : Int)
  /-- A sequence stands where a single value is needed. -/
  | notScalar (length : Nat)
  /-- A domain would have to be enumerated and is larger than the limit. -/
  | domainTooLarge (size limit : Nat)
  /-- The exponent is negative or above 63. -/
  | badExponent (exponent : Int)
  /-- The divisor is the constant zero. -/
  | divisionByZero
  /-- The bounds of the divisor do not exclude zero. -/
  | divisorMayBeZero (lower upper : Int)
  /-- A number leaves the range of a word. -/
  | overflow
  /-- Not a property of the construct. -/
  | fault (cause : Fault)
  deriving DecidableEq, Repr

namespace LoweringError

def message : LoweringError → String
  | notBoolean lower upper =>
    s!"expected a boolean operand, got integer expression with domain [{lower}, {upper}]"
  | notScalar length => s!"expected a scalar, got a sequence of length {length}"
  | domainTooLarge size limit =>
    s!"domain of size {size} exceeds the enumeration limit of {limit}"
  | badExponent exponent => s!"exponent must be a non-negative constant, got {exponent}"
  | divisionByZero => "division by the constant zero"
  | divisorMayBeZero lower upper => s!"divisor domain [{lower}, {upper}] contains zero"
  | overflow => "arithmetic overflows i64"
  | fault cause => cause.message

end LoweringError

namespace Word

/-- An integer that has to be a word. -/
def checked (v : Int) : Except LoweringError Int :=
  if Fits v then .ok v else .error .overflow

/-- The absolute value as a word; only the least word has none. -/
def checkedAbs (v : Int) : Except LoweringError Int := checked v.natAbs

/-- The result of a plain operation on words, which has to be a word without anyone asking. -/
def plain (v : Int) : Except LoweringError Int :=
  if Fits v then .ok v else .error (.fault (.notWord v))

end Word

end Linearization
