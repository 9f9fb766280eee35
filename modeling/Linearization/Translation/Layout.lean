import Linearization.Ilp.Basic
import Linearization.Var

/-!
# Layout

Which column stands for which variable. A boolean variable is a literal, any other a column with its
bounds.
-/

namespace Linearization

/-- What stands for a variable. -/
inductive Image where
  | bool (l : Literal)
  | int (column : Nat)
  deriving DecidableEq, Repr

namespace Image

def column : Image → Nat
  | bool l => l.column
  | int column => column

/-- The variable as a lowered value. -/
def toLowered : Image → Lowered
  | bool l => .literal l
  | int column => .column column

/-- The value of the variable, rounded to a word. -/
def value {α : Type} [Scalar α] (values : Nat → α) : Image → Int
  | bool l => l.value values
  | int column => Scalar.toWord (values column)

end Image

/-- The column that a variable gets: its bounds under its name. -/
def Var.toColumn (v : Var) : Column := ⟨v.name, v.domain.lower, v.domain.upper, v.isBool⟩

/-- What stands for a variable whose column has the given index. -/
def Var.imageAt (v : Var) (column : Nat) : Image :=
  if v.isBool then .bool (.ofColumn column) else .int column

/-- The registered variables with their images, the newest first. -/
structure Layout where
  entries : List (Var × Image) := []

namespace Layout

/-- The image of a variable, if it is registered. -/
def get? (r : Layout) (v : Var) : Option Image :=
  (r.entries.find? (fun entry => entry.1.toVarKey = v.toVarKey)).map Prod.snd

def size (r : Layout) : Nat := r.entries.length

/-- The layout with one more variable. -/
def insert (r : Layout) (v : Var) (h : Image) : Layout := ⟨(v, h) :: r.entries⟩

end Layout

end Linearization
