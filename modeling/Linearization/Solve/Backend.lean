/-!
# Backends

The engines that a configuration can ask for. Only one of them is part of this library; the others
are known by name and refused.
-/

namespace Linearization

/-- An engine, or the choice of the best one available. -/
inductive Backend where
  | auto | microlp | coinCbc | highs
  deriving DecidableEq, Repr

namespace Backend

/-- The name that is shown. -/
def displayName : Backend → String
  | auto => "Auto"
  | microlp => "microlp"
  | coinCbc => "COIN-OR CBC"
  | highs => "HiGHS"

/-- The name in a configuration. -/
def key : Backend → String
  | auto => "auto"
  | microlp => "microlp"
  | coinCbc => "coin_cbc"
  | highs => "highs"

/-- The backend with a name of the configuration. -/
def ofKey? (name : String) : Option Backend :=
  [auto, microlp, coinCbc, highs].find? (fun b => b.key == name)

/-- The engine can be used. -/
def supported : Backend → Bool
  | microlp => true
  | auto | coinCbc | highs => false

/-- The engines in the order in which the automatic choice prefers them. -/
def preferred : List Backend := [highs, coinCbc, microlp]

/-- The engines that can be used, the preferred ones first. -/
def available : List Backend := preferred.filter supported

/-- The engine that stands for a backend; `none` if it cannot be used. -/
def resolve? (b : Backend) : Option Backend :=
  match b with
  | auto => available.head?
  | b => if b.supported then some b else none

end Backend

end Linearization
