import Linearization.Proofs.Ilp.Calls
import Mathlib.Algebra.Order.Field.Rat
import Mathlib.Algebra.Order.Ring.Abs
import Mathlib.Tactic.Linarith
import Mathlib.Tactic.Ring

/-!
# Rounding accepted values

An engine reports rational values, and the program accepts them when bounds, integrality and rows
are met up to the tolerance. What is kept of them are the nearest words. The rounded values keep the
column bounds exactly. A row is evaluated at the values as they are, so the distance of a value from
its integer counts as often as the coefficient says: a row is missed by at most the tolerance times
one more than its weight (`accepts_rounded`). Below a weight of 99999 this is less than one, so the
row holds; from there on it need not (`exceeds_of_weight`).
-/

namespace Linearization

/-! ## Rounding -/

theorem floor_eq_iff {q : Rat} {n : Int} : q.floor = n ↔ (n : Rat) ≤ q ∧ q < n + 1 := by
  have hlt : q.floor < n + 1 ↔ q < ((n + 1 : Int) : Rat) := by
    rw [← not_le, Rat.le_floor_iff, not_le]
  rw [← Rat.le_floor_iff, show (n : Rat) + 1 = ((n + 1 : Int) : Rat) by push_cast; ring, ← hlt]
  omega

/-- The nearest integer to a value that is not negative; at a half the larger one. -/
theorem floor_add_half_eq_iff {q : Rat} {n : Int} (hq : 0 ≤ q) :
    (q + 1 / 2).floor = n ↔ 2 * |q - n| < 1 ∨ 2 * |q - n| = 1 ∧ |q| < |(n : Rat)| := by
  rw [floor_eq_iff, abs_of_nonneg hq]
  constructor
  · rintro ⟨hlow, hhigh⟩
    rcases lt_or_eq_of_le hlow with hlow | heq
    · left
      rcases abs_cases (q - n) with ⟨h, -⟩ | ⟨h, -⟩ <;> rw [h] <;> linarith
    · right
      rw [abs_of_nonpos (by linarith : q - n ≤ 0), abs_of_nonneg (by linarith : 0 ≤ (n : Rat))]
      constructor <;> linarith
  · rintro (hnear | ⟨htie, hfar⟩)
    · rcases abs_cases (q - n) with ⟨h, hsign⟩ | ⟨h, hsign⟩ <;> rw [h] at hnear <;>
        constructor <;> linarith
    · rcases abs_cases (q - n) with ⟨h, hle⟩ | ⟨h, hlt⟩
      · -- the value lies above `n`, so `n` would have to be negative
        have hn : n < 0 := by
          by_contra hn
          rw [abs_of_nonneg (by exact_mod_cast not_lt.1 hn)] at hfar
          linarith
        have : (n : Rat) ≤ -1 := by exact_mod_cast Int.le_sub_one_of_lt hn
        linarith
      · rw [h] at htie
        constructor <;> linarith

/-- The nearest integer is less than a half away; at a half it is the one farther from zero. -/
theorem roundHalfAway_eq_iff {q : Rat} {n : Int} :
    roundHalfAway q = n ↔ 2 * |q - n| < 1 ∨ 2 * |q - n| = 1 ∧ |q| < |(n : Rat)| := by
  unfold roundHalfAway
  split
  · exact floor_add_half_eq_iff ‹_›
  · -- below zero everything is mirrored
    rename_i hq
    have hmirror : (q - 1 / 2).ceil = n ↔ (-q + 1 / 2).floor = -n := by
      rw [Rat.ceil_eq_neg_floor_neg, neg_eq_iff_eq_neg, neg_sub, sub_eq_neg_add]
    have hdistance : |-q - ((-n : Int) : Rat)| = |q - n| := by
      rw [Int.cast_neg, neg_sub_neg, abs_sub_comm]
    rw [hmirror, floor_add_half_eq_iff (by linarith), hdistance, Int.cast_neg, abs_neg, abs_neg]

/-! ## Sums at nearby assignments -/

namespace Term

/-- How often the distance of the columns from their rounded values counts in the sum. -/
def weight (ts : List Term) : Nat := (ts.map fun t => t.coefficient.natAbs).sum

@[simp] theorem weight_cons (t : Term) (ts : List Term) :
    weight (t :: ts) = t.coefficient.natAbs + weight ts := by
  simp [weight]

theorem foldl_eq_add_rat (values : Nat → Rat) (ts : List Term) (s : Rat) :
    ts.foldl (fun acc t => acc + Scalar.ofInt t.coefficient * values t.column) s =
      s + (ts.map fun t => (t.coefficient : Rat) * values t.column).sum := by
  induction ts generalizing s with
  | nil => simp
  | cons t ts ih =>
    rw [List.foldl_cons, ih, List.map_cons, List.sum_cons, ← add_assoc]
    rfl

theorem sum_rat_cons (values : Nat → Rat) (t : Term) (ts : List Term) :
    sum values (t :: ts) = (t.coefficient : Rat) * values t.column + sum values ts := by
  unfold sum
  rw [foldl_eq_add_rat, foldl_eq_add_rat, List.map_cons, List.sum_cons]
  ring

theorem sum_rat_nil (values : Nat → Rat) : sum values [] = 0 := rfl

/-- Where every column is near to an integer, the sum is near to that of the integers. -/
theorem abs_sum_sub_le {values : Nat → Rat} {x : Assignment} {d : Rat} (ts : List Term)
    (h : ∀ t ∈ ts, |values t.column - x t.column| ≤ d) :
    |sum values ts - sum x ts| ≤ weight ts * d := by
  induction ts with
  | nil => simp [sum_rat_nil, weight]
  | cons t ts ih =>
    obtain ⟨ht, hts⟩ := List.forall_mem_cons.1 h
    have hdrift : sum values (t :: ts) - sum x (t :: ts) =
        t.coefficient * (values t.column - x t.column) + (sum values ts - sum x ts) := by
      rw [sum_rat_cons, sum_cons]
      push_cast
      ring
    have hterm : |(t.coefficient : Rat) * (values t.column - x t.column)| ≤
        t.coefficient.natAbs * d := by
      rw [abs_mul, Nat.cast_natAbs, Int.cast_abs]
      exact mul_le_mul_of_nonneg_left ht (abs_nonneg _)
    calc |sum values (t :: ts) - sum x (t :: ts)|
        ≤ |(t.coefficient : Rat) * (values t.column - x t.column)| +
            |sum values ts - sum x ts| := hdrift ▸ abs_add_le _ _
      _ ≤ t.coefficient.natAbs * d + weight ts * d := add_le_add hterm (ih hts)
      _ = weight (t :: ts) * d := by
        rw [weight_cons]
        push_cast
        ring

end Term

/-! ## Accepted values -/

/-- No side of the row is missed by more than `n` parts in 100000. -/
def Row.HoldsUpTo (n : Nat) (x : Assignment) (r : Row) : Prop :=
  (∀ l ∈ r.lower, 100000 * (l - r.activity x) ≤ n) ∧
    ∀ u ∈ r.upper, 100000 * (r.activity x - u) ≤ n

instance (n : Nat) (x : Assignment) (r : Row) : Decidable (r.HoldsUpTo n x) :=
  inferInstanceAs (Decidable (_ ∧ _))

/-- Sides and activity are integers, so a row that is missed by less than one holds. -/
theorem Row.HoldsUpTo.holds {n : Nat} {x : Assignment} {r : Row} (h : r.HoldsUpTo n x)
    (hn : n < 100000) : r.Holds x :=
  ⟨fun l hl => by have := h.1 l hl; omega, fun u hu => by have := h.2 u hu; omega⟩

namespace Ilp

/-- The values as they are kept: the nearest word for every column. -/
def rounded (values : Array Rat) : Assignment := fun i => Scalar.toWord (assignmentOf values i)

/-- The bounds of every column are words. -/
def HasWordBounds (p : Ilp) : Prop := ∀ c ∈ p.columns, Word.Fits c.lower ∧ Word.Fits c.upper

instance (p : Ilp) : Decidable p.HasWordBounds := inferInstanceAs (Decidable (∀ c ∈ p.columns, _))

variable {p : Ilp} {values : Array Rat}

theorem near_of_column_accepts {c : Column} {v : Rat} (h : c.accepts v = true) :
    |v - roundHalfAway v| ≤ 1 / 100000 ∧ c.Admits (roundHalfAway v) := by
  simp only [Column.accepts, Bool.and_eq_true] at h
  obtain ⟨⟨⟨hlower, hupper⟩, hbelow⟩, habove⟩ := h
  replace hlower : (c.lower : Rat) - 1 / 100000 ≤ v := of_decide_eq_true hlower
  replace hupper : v ≤ c.upper + 1 / 100000 := of_decide_eq_true hupper
  replace hbelow : v - roundHalfAway v ≤ 1 / 100000 := of_decide_eq_true hbelow
  replace habove : roundHalfAway v - v ≤ 1 / 100000 := of_decide_eq_true habove
  refine ⟨abs_le.2 ⟨by linarith, hbelow⟩, ?_, ?_⟩
  · have hlt : (c.lower : Rat) < roundHalfAway v + 1 := by linarith
    have : c.lower < roundHalfAway v + 1 := by exact_mod_cast hlt
    omega
  · have hlt : (roundHalfAway v : Rat) < c.upper + 1 := by linarith
    have : roundHalfAway v < c.upper + 1 := by exact_mod_cast hlt
    omega

theorem columns_of_accepts (h : p.accepts values = true) {i : Nat} {c : Column}
    (hc : p.columns[i]? = some c) : c.accepts (assignmentOf values i) = true := by
  simp only [accepts, Bool.and_eq_true, beq_iff_eq] at h
  obtain ⟨⟨hsize, hcolumns⟩, -⟩ := h
  obtain ⟨hi, rfl⟩ := Array.getElem?_eq_some_iff.1 hc
  have hi' : i < values.size := hsize ▸ hi
  have hmem : (p.columns[i], values[i]) ∈ p.columns.zip values := by
    refine Array.mem_of_getElem? (i := i) ?_
    rw [Array.getElem?_zip_eq_some]
    exact ⟨Array.getElem?_eq_getElem hi, Array.getElem?_eq_getElem hi'⟩
  have haccepts := Array.all_eq_true_iff_forall_mem.1 hcolumns _ hmem
  rwa [assignmentOf, Array.getD_eq_getD_getElem?, Array.getElem?_eq_getElem hi']

/-- The rounded values keep the bounds, and none is farther from its value than the tolerance. -/
theorem rounded_of_accepts (hwords : p.HasWordBounds) (h : p.accepts values = true) {i : Nat}
    {c : Column} (hc : p.columns[i]? = some c) :
    |assignmentOf values i - rounded values i| ≤ 1 / 100000 ∧ c.Admits (rounded values i) := by
  obtain ⟨hnear, hadmits⟩ := near_of_column_accepts (columns_of_accepts h hc)
  have hbounds := hwords c (Array.mem_of_getElem? hc)
  -- between two words nothing is clamped
  have hrounded : rounded values i = roundHalfAway (assignmentOf values i) :=
    Word.clamp_eq_self ⟨hbounds.1.1.trans hadmits.1, hadmits.2.trans hbounds.2.2⟩
  rw [hrounded]
  exact ⟨hnear, hadmits⟩

theorem near_of_accepts (hwords : p.HasWordBounds) (h : p.accepts values = true) (i : Nat) :
    |assignmentOf values i - rounded values i| ≤ 1 / 100000 := by
  cases hc : p.columns[i]? with
  | some c => exact (rounded_of_accepts hwords h hc).1
  | none =>
    have hsize : values.size = p.columns.size := by
      simp only [accepts, Bool.and_eq_true, beq_iff_eq] at h
      exact h.1.1
    have hnone : values[i]? = none := by
      rw [Array.getElem?_eq_none_iff] at hc ⊢
      omega
    have hzero : assignmentOf values i = 0 := by
      rw [assignmentOf, Array.getD_eq_getD_getElem?, hnone]
      rfl
    rw [rounded, hzero]
    decide +kernel

/-- An accepted row is missed by no more than the tolerance at the values, and these are no farther
from the rounded ones than its weight says. -/
theorem holdsUpTo_of_accepts (hwords : p.HasWordBounds) (h : p.accepts values = true) {r : Row}
    (hr : r ∈ p.rows) : r.HoldsUpTo (Term.weight r.terms + 1) (rounded values) := by
  have hdrift := Term.abs_sum_sub_le r.terms fun t _ => near_of_accepts hwords h t.column
  rw [abs_le] at hdrift
  have haccepts : r.accepts (assignmentOf values) = true := by
    simp only [accepts, Bool.and_eq_true] at h
    exact Array.all_eq_true_iff_forall_mem.1 h.2 r hr
  simp only [Row.accepts, Bool.and_eq_true, Option.all_eq_true] at haccepts
  constructor
  · intro l hl
    have hside : (l : Rat) - 1 / 100000 ≤ Term.sum (assignmentOf values) r.terms :=
      of_decide_eq_true (haccepts.1 l hl)
    have hmiss : (100000 : Rat) * (l - Term.sum (rounded values) r.terms) ≤
        Term.weight r.terms + 1 := by linarith
    exact_mod_cast hmiss
  · intro u hu
    have hside : Term.sum (assignmentOf values) r.terms ≤ (u : Rat) + 1 / 100000 :=
      of_decide_eq_true (haccepts.2 u hu)
    have hmiss : (100000 : Rat) * (Term.sum (rounded values) r.terms - u) ≤
        Term.weight r.terms + 1 := by linarith
    exact_mod_cast hmiss

/-- Accepted values, rounded, keep every column bound. A row holds at them if its weight is below
99999, and is otherwise missed by at most one more than its weight in parts of 100000. -/
theorem accepts_rounded (hwords : p.HasWordBounds) (h : p.accepts values = true) :
    (∀ (i : Nat) (c : Column), p.columns[i]? = some c → c.Admits (rounded values i)) ∧
    (∀ r ∈ p.rows, Term.weight r.terms < 99999 → r.Holds (rounded values)) ∧
    ∀ r ∈ p.rows, r.HoldsUpTo (Term.weight r.terms + 1) (rounded values) :=
  ⟨fun _ _ hc => (rounded_of_accepts hwords h hc).2,
    fun _ hr hweight => (holdsUpTo_of_accepts hwords h hr).holds (by omega),
    fun _ hr => holdsUpTo_of_accepts hwords h hr⟩

/-- A truth value and a number, both a little off, in a row of weight 1003. -/
theorem accepts_rounded_of_near :
    let p := (empty 4096).afterCalls [.newBool "b", .newInt 0 5 "x",
      .require ⟨.single 0 1000 + .single 1 3, .le, .const 1006⟩]
    let values : Array Rat := #[999995 / 1000000, 2000001 / 1000000]
    p.HasWordBounds ∧ p.accepts values = true ∧ p.Solves (rounded values) := by
  intro p values
  have hwords : p.HasWordBounds := by decide +kernel
  have haccepts : p.accepts values = true := by decide +kernel
  have hweight : ∀ r ∈ p.rows, Term.weight r.terms < 99999 := by decide +kernel
  obtain ⟨hcolumns, hrows, -⟩ := accepts_rounded hwords haccepts
  exact ⟨hwords, haccepts, hcolumns, fun r hr => hrows r hr (hweight r hr)⟩

/-- From a weight of 99999 on, a row may be accepted at a value that misses it once rounded: a
truth value that is the tolerance short of one, where the row excludes one. -/
theorem exceeds_of_weight {k : Int} (hk : 99999 ≤ k) :
    let row : Row := ⟨[⟨0, k⟩], none, some (k - 1)⟩
    let p : Ilp := ((empty 4096).withColumn ⟨"b", 0, 1, true⟩).withRow row
    let values : Array Rat := #[99999 / 100000]
    Term.weight row.terms = k ∧ p.accepts values = true ∧ ¬ row.Holds (rounded values) := by
  intro row p values
  have hvalue : assignmentOf values 0 = (99999 / 100000 : Rat) := rfl
  refine ⟨?_, ?_, ?_⟩
  · simp [row, Term.weight]
    omega
  · have hcolumn : Column.accepts ⟨"b", 0, 1, true⟩ (99999 / 100000 : Rat) = true := by
      decide +kernel
    have hside : (k : Rat) * (99999 / 100000) ≤ ((k - 1 : Int) : Rat) + 1 / 100000 := by
      have : (99999 : Rat) ≤ k := by exact_mod_cast hk
      push_cast
      linarith
    have hrow : row.accepts (assignmentOf values) = true := by
      simp only [Row.accepts, Row.activity, row, Term.sum_rat_cons, Term.sum_rat_nil, hvalue,
        add_zero, Option.all_none, Option.all_some, Bool.true_and]
      exact decide_eq_true hside
    simpa [accepts, p, values, withColumn, withRow, empty, hcolumn] using hrow
  · have hrounded : rounded values 0 = 1 := by decide +kernel
    simp only [Row.Holds, Row.activity, row, Term.sum_cons, Term.sum_nil, hrounded]
    simp

/-- With the coefficient 200000 one is accepted at 0.999995, where the row leaves only zero. -/
theorem accepts_rounded_exceeds :
    let p := (empty 4096).afterCalls [.newBool "b",
      .require ⟨.single 0 200000, .le, .const 199999⟩]
    let values : Array Rat := #[999995 / 1000000]
    p.HasWordBounds ∧ p.accepts values = true ∧ ¬ p.Solves (rounded values) := by
  decide +kernel

end Ilp

end Linearization
