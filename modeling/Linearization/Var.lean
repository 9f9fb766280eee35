/-!
# Decision variables

A variable is identified by its serial number together with its domain; its name is for reading
only, and several variables may share one. `Slots` holds the values that solving wrote back.
-/

namespace Linearization

/-- What values a variable may take. -/
inductive Domain where
  | bool
  | int (lower upper : Int)
  deriving DecidableEq, Repr

namespace Domain

def lower : Domain → Int
  | bool => 0
  | int l _ => l

def upper : Domain → Int
  | bool => 1
  | int _ u => u

/-- The value lies between the bounds, both included. -/
def Admits (d : Domain) (v : Int) : Prop := d.lower ≤ v ∧ v ≤ d.upper

instance (d : Domain) (v : Int) : Decidable (d.Admits v) := inferInstanceAs (Decidable (_ ∧ _))

end Domain

/-- Where a variable comes from: the user declared it, numbered in the order of declaration, or a
decomposition introduced it for the column that it is about to get. -/
inductive Serial where
  | declared (number : Nat)
  | introduced (column : Nat)
  deriving DecidableEq, Repr

namespace Serial

/-- Earlier declarations come first, and introduced variables after all declared ones. -/
def compare : Serial → Serial → Ordering
  | declared a, declared b => Ord.compare a b
  | declared _, introduced _ => .lt
  | introduced _, declared _ => .gt
  | introduced a, introduced b => Ord.compare a b

end Serial

/-- The identity of a variable. -/
structure VarKey where
  serial : Serial
  domain : Domain
  deriving DecidableEq, Repr

/-- A decision variable. -/
structure Var extends VarKey where
  name : String
  deriving DecidableEq, Repr

namespace Var

/-- The variable stands for a truth value. -/
def isBool (v : Var) : Bool := v.domain == .bool

/-- The name and the domain, as they are shown in listings. -/
def describe (v : Var) : String :=
  match v.domain with
  | .bool => s!"BoolVar({v.name})"
  | .int lower upper => s!"IntVar({v.name}, {lower}..={upper})"

end Var

/-- The values that variables have, for those that have one. -/
structure Slots where
  entries : List (VarKey × Int) := []
  deriving DecidableEq, Repr

namespace Slots

/-- The value of a variable. -/
def get? (s : Slots) (k : VarKey) : Option Int :=
  (s.entries.find? (fun entry => entry.1 = k)).map Prod.snd

/-- Give a variable a value. -/
def set (s : Slots) (k : VarKey) (value : Int) : Slots := ⟨(k, value) :: s.entries⟩

/-- Take the value of a variable away. -/
def erase (s : Slots) (k : VarKey) : Slots := ⟨s.entries.filter (fun entry => entry.1 ≠ k)⟩

@[simp] theorem get?_set (s : Slots) (k l : VarKey) (value : Int) :
    (s.set k value).get? l = if l = k then some value else s.get? l := by
  by_cases h : l = k
  · simp [get?, set, h]
  · simp [get?, set, h, Ne.symm h]

@[simp] theorem get?_erase (s : Slots) (k l : VarKey) :
    (s.erase k).get? l = if l = k then none else s.get? l := by
  obtain ⟨entries⟩ := s
  unfold get? erase
  induction entries with
  | nil => simp
  | cons entry entries ih =>
    by_cases hk : entry.1 = k
    · rw [List.filter_cons_of_neg (by simpa using hk), ih]
      by_cases h : l = k
      · simp [h]
      · simp [h, hk, Ne.symm h]
    · rw [List.filter_cons_of_pos (by simpa using hk), List.find?_cons, List.find?_cons]
      by_cases h : entry.1 = l
      · subst h; simp [hk]
      · simpa [h] using ih

end Slots

end Linearization
