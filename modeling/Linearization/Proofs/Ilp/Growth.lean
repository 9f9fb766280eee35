import Linearization.Ilp.Solution
import Linearization.Proofs.Affine

/-!
# Growing programs

`p.Grows q` says that `q` still has everything that `p` has, at the same places. A solution of the
grown program solves the earlier one (`Grows.solves`), and a new column or row adds exactly its own
condition (`solves_withColumn`, `solves_withRow`).
-/

namespace Linearization.Ilp

/-- Columns and rows are only appended, encodings only added, and the rest stays. -/
structure Grows (p q : Ilp) : Prop where
  columns : p.columns.toList <+: q.columns.toList
  rows : p.rows.toList <+: q.rows.toList
  trueColumn : ∀ i, p.trueColumn = some i → q.trueColumn = some i
  encodings : p.encodings <:+ q.encodings
  objective : q.objective = p.objective
  enumerationLimit : q.enumerationLimit = p.enumerationLimit

namespace Grows

variable {p q r : Ilp} {x : Assignment}

theorem refl (p : Ilp) : p.Grows p :=
  ⟨List.prefix_refl _, List.prefix_refl _, fun _ h => h, List.suffix_refl _, rfl, rfl⟩

theorem trans (h : p.Grows q) (h' : q.Grows r) : p.Grows r :=
  ⟨h.columns.trans h'.columns, h.rows.trans h'.rows,
    fun i hi => h'.trueColumn i (h.trueColumn i hi), h.encodings.trans h'.encodings,
    h'.objective.trans h.objective, h'.enumerationLimit.trans h.enumerationLimit⟩

theorem size_le (h : p.Grows q) : p.columns.size ≤ q.columns.size := by
  simpa using h.columns.length_le

theorem column (h : p.Grows q) {i : Nat} {c : Column} (hc : p.columns[i]? = some c) :
    q.columns[i]? = some c := by
  obtain ⟨rest, hrest⟩ := h.columns
  rw [← Array.getElem?_toList] at hc ⊢
  rw [← hrest]
  exact List.getElem?_append_left (List.getElem?_eq_some_iff.1 hc).1 ▸ hc

theorem mem_rows (h : p.Grows q) {r : Row} (hr : r ∈ p.rows) : r ∈ q.rows := by
  rw [← Array.mem_toList_iff] at hr ⊢
  exact h.rows.subset hr

theorem solves (h : p.Grows q) (hx : q.Solves x) : p.Solves x :=
  ⟨fun i c hc => hx.1 i c (h.column hc), fun r hr => hx.2 r (h.mem_rows hr)⟩

end Grows

variable {p : Ilp} {x : Assignment}

theorem solves_empty (limit : Nat) (x : Assignment) : (empty limit).Solves x := by
  constructor
  · intro i c hc
    cases hc
  · intro r hr
    cases hr with
    | mk hr => cases hr

/-! ## One more column, one more row -/

theorem grows_withColumn (p : Ilp) (c : Column) : p.Grows (p.withColumn c) where
  columns := by simp [withColumn]
  rows := List.prefix_refl _
  trueColumn _ h := h
  encodings := List.suffix_refl _
  objective := rfl
  enumerationLimit := rfl

theorem grows_withRow (p : Ilp) (r : Row) : p.Grows (p.withRow r) where
  columns := List.prefix_refl _
  rows := by simp [withRow]
  trueColumn _ h := h
  encodings := List.suffix_refl _
  objective := rfl
  enumerationLimit := rfl

@[simp] theorem size_withColumn (p : Ilp) (c : Column) :
    (p.withColumn c).columns.size = p.columns.size + 1 := by
  simp [withColumn]

theorem getElem?_withColumn (p : Ilp) (c : Column) (i : Nat) :
    (p.withColumn c).columns[i]? = if i = p.columns.size then some c else p.columns[i]? := by
  simp [withColumn, Array.getElem?_push]

theorem getElem?_withColumn_size (p : Ilp) (c : Column) :
    (p.withColumn c).columns[p.columns.size]? = some c := by
  rw [getElem?_withColumn, if_pos rfl]

theorem solves_withRow {r : Row} : (p.withRow r).Solves x ↔ p.Solves x ∧ r.Holds x := by
  constructor
  · intro h
    exact ⟨(p.grows_withRow r).solves h, h.2 r (by simp [withRow])⟩
  · rintro ⟨h, hr⟩
    refine ⟨h.1, fun r' hr' => ?_⟩
    rcases Array.mem_push.1 hr' with hr' | rfl
    · exact h.2 r' hr'
    · exact hr

theorem solves_withColumn {c : Column} :
    (p.withColumn c).Solves x ↔ p.Solves x ∧ c.Admits (x p.columns.size) := by
  constructor
  · intro h
    exact ⟨(p.grows_withColumn c).solves h, h.1 _ c (p.getElem?_withColumn_size c)⟩
  · rintro ⟨h, hc⟩
    refine ⟨fun i d hd => ?_, h.2⟩
    rw [getElem?_withColumn] at hd
    split at hd
    · rename_i hi
      cases hd
      rwa [hi]
    · exact h.1 i d hd

end Linearization.Ilp
