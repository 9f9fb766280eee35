import Linearization.Ilp.Encoding
import Linearization.Proofs.Ilp.Bounds

/-!
# Well-formed programs

The invariant of a program under construction: rows only use columns that exist, the true column is
fixed to one, and every kept encoding belongs to its form, which means that in every solution the
true literals of the encoding are those of the value of the form. A form has at most one kept
encoding. Whether an assignment solves a well-formed program depends only on its columns
(`WellFormed.solves_congr`).
-/

namespace Linearization

/-- The integers from `lower` to `upper`. -/
def interval (lower upper : Int) : List Int :=
  (List.range (upper - lower + 1).toNat).map fun (i : Nat) => lower + i

theorem mem_interval {lower upper n : Int} :
    n ∈ interval lower upper ↔ lower ≤ n ∧ n ≤ upper := by
  simp only [interval, List.mem_map, List.mem_range]
  constructor
  · rintro ⟨i, hi, rfl⟩
    omega
  · intro h
    exact ⟨(n - lower).toNat, by omega, by omega⟩

/-- Under the assignment, the literals of the encoding single out the value `n`. -/
def Encoding.Selects (encoding : Encoding) (x : Assignment) (n : Int) : Prop :=
  (∃ entry ∈ encoding, entry.1 = n) ∧ ∀ entry ∈ encoding, (entry.2.Holds x ↔ entry.1 = n)

namespace Ilp

/-- The literal stands on a column with bounds inside `[0, 1]`. -/
def IsTruth (p : Ilp) (l : Literal) : Prop :=
  ∃ c, p.columns[l.column]? = some c ∧ 0 ≤ c.lower ∧ c.upper ≤ 1

/-- The encoding has one literal for every value within the bounds of the form, and in every
solution the true one is that of the value of the form. -/
structure Encodes (p : Ilp) (e : Affine) (encoding : Encoding) : Prop where
  values : ∃ lower upper, p.bounds e = .ok (lower, upper) ∧
    encoding.map Prod.fst = interval lower upper
  truth : ∀ entry ∈ encoding, p.IsTruth entry.2
  selects : ∀ x, p.Solves x → encoding.Selects x (e.eval x)

/-- What every step of a construction preserves. -/
structure WellFormed (p : Ilp) : Prop where
  rows : ∀ r ∈ p.rows, ∀ t ∈ r.terms, t.column < p.columns.size
  trueColumn : ∀ i, p.trueColumn = some i →
    ∃ c, p.columns[i]? = some c ∧ c.lower = 1 ∧ c.upper = 1
  encodings : ∀ entry ∈ p.encodings, p.Encodes entry.1 entry.2
  /-- A form with a single value needs no encoding. -/
  sizes : ∀ entry ∈ p.encodings, entry.2.length ≠ 1 ∧ entry.2.length ≤ p.enumerationLimit ∧
    entry.2.length ≤ Encoding.capacity
  distinct : (p.encodings.map Prod.fst).Nodup

variable {p q : Ilp} {x y : Assignment} {l : Literal}

/-! ## Truth values -/

theorem IsTruth.column_lt (h : p.IsTruth l) : l.column < p.columns.size := by
  obtain ⟨c, hc, -⟩ := h
  exact (Array.getElem?_eq_some_iff.1 hc).1

theorem IsTruth.mono (h : p.IsTruth l) (hg : p.Grows q) : q.IsTruth l := by
  obtain ⟨c, hc, hb⟩ := h
  exact ⟨c, hg.column hc, hb⟩

@[simp] theorem isTruth_negate : p.IsTruth l.negate ↔ p.IsTruth l := Iff.rfl

theorem IsTruth.eval (h : p.IsTruth l) (hx : p.Solves x) :
    l.toAffine.eval x = 0 ∨ l.toAffine.eval x = 1 := by
  obtain ⟨c, hc, hl, hu⟩ := h
  have hadmits := hx.1 _ c hc
  unfold Column.Admits at hadmits
  rw [Literal.eval_toAffine]
  split <;> omega

theorem IsTruth.holds_negate (h : p.IsTruth l) (hx : p.Solves x) :
    l.negate.Holds x ↔ ¬ l.Holds x := by
  unfold Literal.Holds
  rw [Literal.eval_toAffine_negate]
  rcases h.eval hx with h | h <;> omega

theorem IsTruth.eval_eq_ofTruth (h : p.IsTruth l) (hx : p.Solves x) :
    l.toAffine.eval x = if l.Holds x then 1 else 0 := by
  unfold Literal.Holds
  rcases h.eval hx with h | h <;> simp [h]

/-! ## Encodings -/

theorem Encodes.mono {e : Affine} {encoding : Encoding} (h : p.Encodes e encoding)
    (hg : p.Grows q) : q.Encodes e encoding where
  values := by
    obtain ⟨lower, upper, hb, hv⟩ := h.values
    exact ⟨lower, upper, hg.bounds hb, hv⟩
  truth entry he := (h.truth entry he).mono hg
  selects x hx := h.selects x (hg.solves hx)

/-! ## Preservation -/

namespace WellFormed

theorem row_congr {r : Row} (hr : ∀ t ∈ r.terms, t.column < p.columns.size)
    (hxy : AgreeBelow p.columns.size x y) : r.Holds x ↔ r.Holds y := by
  unfold Row.Holds Row.activity
  rw [Affine.sum_congr hxy hr]

/-- Only the columns of the program decide whether an assignment solves it. -/
theorem solves_congr (hp : p.WellFormed) (hxy : AgreeBelow p.columns.size x y)
    (hx : p.Solves x) : p.Solves y := by
  refine ⟨fun i c hc => ?_, fun r hr => (row_congr (hp.rows r hr) hxy).1 (hx.2 r hr)⟩
  rw [← hxy i (Array.getElem?_eq_some_iff.1 hc).1]
  exact hx.1 i c hc

theorem empty (limit : Nat) : (Ilp.empty limit).WellFormed where
  rows _ h := by simp [Ilp.empty] at h
  trueColumn _ h := by simp [Ilp.empty] at h
  encodings _ h := by simp [Ilp.empty] at h
  sizes _ h := by simp [Ilp.empty] at h
  distinct := List.nodup_nil

theorem withColumn (hp : p.WellFormed) (c : Column) : (p.withColumn c).WellFormed where
  rows r hr t ht := by
    have := hp.rows r hr t ht
    rw [size_withColumn]
    omega
  trueColumn i hi := by
    obtain ⟨d, hd, hb⟩ := hp.trueColumn i hi
    exact ⟨d, (p.grows_withColumn c).column hd, hb⟩
  encodings entry he := (hp.encodings entry he).mono (p.grows_withColumn c)
  sizes := hp.sizes
  distinct := hp.distinct

theorem withRow (hp : p.WellFormed) {r : Row} (hr : ∀ t ∈ r.terms, t.column < p.columns.size) :
    (p.withRow r).WellFormed where
  rows r' hr' t ht := by
    rcases Array.mem_push.1 hr' with hr' | rfl
    · exact hp.rows r' hr' t ht
    · exact hr t ht
  trueColumn := hp.trueColumn
  encodings entry he := (hp.encodings entry he).mono (p.grows_withRow r)
  sizes := hp.sizes
  distinct := hp.distinct

end WellFormed

/-! ## Objectives -/

/-- The program with another objective. -/
def withObjective (p : Ilp) (objective : Option (Direction × Affine)) : Ilp := { p with objective }

variable {e : Affine} {encoding : Encoding} {objective : Option (Direction × Affine)}

theorem bounds_withObjective : (p.withObjective objective).bounds e = p.bounds e := by
  unfold bounds
  rw [boundsFrom_congr (show (p.withObjective objective).columns = p.columns from rfl)]

theorem Encodes.withObjective (h : p.Encodes e encoding) :
    (p.withObjective objective).Encodes e encoding where
  values := by
    rw [bounds_withObjective]
    exact h.values
  truth := h.truth
  selects := h.selects

theorem WellFormed.withObjective (hp : p.WellFormed) : (p.withObjective objective).WellFormed where
  rows := hp.rows
  trueColumn := hp.trueColumn
  encodings entry hmem := (hp.encodings entry hmem).withObjective
  sizes := hp.sizes
  distinct := hp.distinct

end Ilp

end Linearization
