import Linearization.Comparison
import Linearization.Operator
import Linearization.Var

/-!
# Expressions

The expression language of models: constants, variables and complements of boolean variables, lists,
operators, comparisons, array elements and global constraints. A truth value is an integer, one for
true and zero for false.
-/

namespace Linearization

/-- Global constraints and functions that are given by their arguments alone. -/
inductive GlobalKind where
  /-- All arguments take pairwise distinct values. -/
  | allDifferent
  /-- All arguments that are not zero take pairwise distinct values. -/
  | allDifferentExceptZero
  /-- All arguments take the same value. -/
  | allEqual
  /-- The successors form a single cycle through all nodes. -/
  | circuit
  /-- The smallest argument. -/
  | min
  /-- The largest argument. -/
  | max
  deriving DecidableEq, Repr

namespace GlobalKind

def name : GlobalKind → String
  | allDifferent => "alldifferent"
  | allDifferentExceptZero => "alldifferent_except0"
  | allEqual => "allequal"
  | circuit => "circuit"
  | min => "min"
  | max => "max"

end GlobalKind

mutual

/-- A constraint or a value. -/
inductive Expr where
  | const (value : Int)
  | var (v : Var)
  /-- The complement of a boolean variable. -/
  | complement (v : Var)
  /-- A sequence, which is compared item by item. -/
  | list (items : List Expr)
  | op (o : Operator) (args : List Expr)
  | compare (c : Comparison) (lhs rhs : Expr)
  /-- The item of an array at an index that counts from zero. -/
  | element (array : List Expr) (index : Expr)
  | global (g : Global)

/-- A global constraint, which is true or false, or a global function, which has an integer value.
-/
inductive Global where
  | plain (kind : GlobalKind) (args : List Expr)
  /-- The number of arguments that equal a value. -/
  | count (args : List Expr) (value : Expr)
  /-- Each of the counts is the number of arguments that equal the value at its place. -/
  | cardinality (args : List Expr) (values : List Int) (counts : List Expr)
  /-- A constraint that is known by its name only. -/
  | named (name : String) (args : List Expr)
  /-- A constraint that comes with its own decomposition, which may introduce variables. -/
  | defined (name : String) (args constraints : List Expr) (newVars : List Var)

end

instance : Inhabited Expr := ⟨.const 0⟩

namespace Global

def name : Global → String
  | plain kind _ => kind.name
  | count _ _ => "count"
  | cardinality _ _ _ => "gcc"
  | named name _ => name
  | defined name _ _ _ => name

/-- The arguments in the order in which they are visited. -/
def args : Global → List Expr
  | plain _ args => args
  | count args value => args ++ [value]
  | cardinality args _ counts => args ++ counts
  | named _ args => args
  | defined _ args _ _ => args

/-- The global is a constraint and not a function with an integer value. -/
def isBoolean : Global → Bool
  | plain .min _ | plain .max _ | count _ _ => false
  | _ => true

end Global

namespace Expr

/-- The direct subexpressions, in argument order. -/
def children : Expr → List Expr
  | const _ | var _ | complement _ => []
  | list items => items
  | op _ args => args
  | compare _ lhs rhs => [lhs, rhs]
  | element array index => array ++ [index]
  | global g => g.args

/-- The boolean variable that the expression is, or is the complement of. -/
def asBoolLiteral : Expr → Option Var
  | var v => if v.isBool then some v else none
  | complement v => some v
  | _ => none

/-- The arguments of an expression with the operator; any other expression itself. -/
def operands (o : Operator) : Expr → List Expr
  | op inner args => if inner = o then args else [op inner args]
  | e => [e]

/-- An operator with any number of arguments; an argument with the same operator gives its own
arguments instead. -/
def nary (o : Operator) (items : List Expr) : Expr := op o (items.flatMap (operands o))

def sum : List Expr → Expr := nary .sum
def all : List Expr → Expr := nary .and
def any : List Expr → Expr := nary .or
def parity : List Expr → Expr := nary .xor

def equals (a b : Expr) : Expr := compare .eq a b
def differs (a b : Expr) : Expr := compare .ne a b
def implies (a b : Expr) : Expr := op .implies [a, b]

/-- The logical complement: of a boolean variable its complement, of a comparison the comparison
with the complementary operator, and of anything else that it is zero. -/
def not : Expr → Expr
  | var v => if v.isBool then complement v else (var v).equals (const 0)
  | complement v => var v
  | const c => const (if c = 0 then 1 else 0)
  | compare c lhs rhs => compare c.negate lhs rhs
  | e => e.equals (const 0)

end Expr

end Linearization
