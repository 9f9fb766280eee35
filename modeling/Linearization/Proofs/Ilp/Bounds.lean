import Linearization.Proofs.Ilp.Growth

/-!
# Bounds of forms

`bounds e` is an interval that holds the value of `e` under every assignment within the column
bounds (`mem_of_bounds`). It only looks at columns that exist (`below_of_bounds`), so it stays the
same while the program grows (`Grows.bounds`).
-/

namespace Linearization.Ilp

variable {p q : Ilp} {e : Affine} {lower upper : Int} {x : Assignment}

theorem mul_mem_interval {a b v k : Int} (ha : a ≤ v) (hb : v ≤ b) :
    min (k * a) (k * b) ≤ k * v ∧ k * v ≤ max (k * a) (k * b) := by
  rcases Int.le_total 0 k with hk | hk
  · have h₁ : k * a ≤ k * v := Int.mul_le_mul_of_nonneg_left ha hk
    have h₂ : k * v ≤ k * b := Int.mul_le_mul_of_nonneg_left hb hk
    omega
  · have h₁ : k * v ≤ k * a := Int.mul_le_mul_of_nonpos_left hk ha
    have h₂ : k * b ≤ k * v := Int.mul_le_mul_of_nonpos_left hk hb
    omega

theorem boundsFrom_cons {t : Term} {ts : List Term} {interval b : Int × Int}
    (h : p.boundsFrom (t :: ts) interval = .ok b) :
    ∃ c, p.columns[t.column]? = some c ∧
      p.boundsFrom ts (interval.1 + min (t.coefficient * c.lower) (t.coefficient * c.upper),
        interval.2 + max (t.coefficient * c.lower) (t.coefficient * c.upper)) = .ok b := by
  unfold boundsFrom at h
  split at h
  · cases h
  · rename_i c hc
    dsimp only at h
    split at h
    · exact ⟨c, hc, h⟩
    · cases h

theorem boundsFrom_below {ts : List Term} {interval b : Int × Int}
    (h : p.boundsFrom ts interval = .ok b) : ∀ t ∈ ts, t.column < p.columns.size := by
  induction ts generalizing interval with
  | nil =>
    intro u hu
    cases hu
  | cons t ts ih =>
    obtain ⟨c, hc, h⟩ := boundsFrom_cons h
    intro u hu
    rcases List.mem_cons.1 hu with rfl | hu
    · exact (Array.getElem?_eq_some_iff.1 hc).1
    · exact ih h u hu

theorem boundsFrom_mem {ts : List Term} {interval b : Int × Int}
    (h : p.boundsFrom ts interval = .ok b) (hx : p.Solves x) {s : Int} (hl : interval.1 ≤ s)
    (hu : s ≤ interval.2) : b.1 ≤ s + Term.sum x ts ∧ s + Term.sum x ts ≤ b.2 := by
  induction ts generalizing interval s with
  | nil =>
    cases h
    simpa using ⟨hl, hu⟩
  | cons t ts ih =>
    obtain ⟨c, hc, h⟩ := boundsFrom_cons h
    have hadmits := hx.1 _ c hc
    have hterm := mul_mem_interval (k := t.coefficient) hadmits.1 hadmits.2
    rw [Term.sum_cons, ← Int.add_assoc]
    refine ih h ?_ ?_ <;> dsimp only <;> omega

theorem boundsFrom_of_grows (hg : p.Grows q) {ts : List Term} {interval b : Int × Int}
    (h : p.boundsFrom ts interval = .ok b) : q.boundsFrom ts interval = .ok b := by
  induction ts generalizing interval with
  | nil => exact h
  | cons t ts ih =>
    unfold boundsFrom at h ⊢
    split at h
    · cases h
    · rename_i c hc
      rw [hg.column hc]
      dsimp only at h ⊢
      split at h
      · rename_i hfits
        rw [if_pos hfits]
        exact ih h
      · cases h

/-- Bounds only depend on the columns. -/
theorem boundsFrom_congr (h : p.columns = q.columns) (ts : List Term) (interval : Int × Int) :
    p.boundsFrom ts interval = q.boundsFrom ts interval := by
  induction ts generalizing interval with
  | nil => rfl
  | cons t ts ih =>
    obtain ⟨lower, upper⟩ := interval
    simp only [boundsFrom, h, ih]

/-- The interval is that of the sum, and both of its ends are words. -/
theorem bounds_eq_ok : p.bounds e = .ok (lower, upper) ↔
    p.boundsFrom e.terms (e.constant, e.constant) = .ok (lower, upper) ∧
      Word.Fits lower ∧ Word.Fits upper := by
  unfold bounds
  cases hb : p.boundsFrom e.terms (e.constant, e.constant) with
  | error _ => simp [bind, Except.bind]
  | ok b =>
    obtain ⟨l, u⟩ := b
    simp only [bind, Except.bind, Word.checked]
    by_cases hl : Word.Fits l <;> by_cases hu : Word.Fits u <;>
      simp only [hl, hu, if_true, if_false, pure, Except.pure, reduceCtorEq, Except.ok.injEq,
        Prod.mk.injEq, false_iff, not_and]
    · constructor
      · rintro ⟨rfl, rfl⟩
        exact ⟨⟨rfl, rfl⟩, hl, hu⟩
      · exact fun h => h.1
    · rintro ⟨rfl, rfl⟩ - h
      exact hu h
    · rintro ⟨rfl, rfl⟩ h
      exact absurd h hl
    · rintro ⟨rfl, rfl⟩ h
      exact absurd h hl

theorem below_of_bounds (h : p.bounds e = .ok (lower, upper)) : e.Below p.columns.size :=
  boundsFrom_below (bounds_eq_ok.1 h).1

/-- The value of the form lies within its bounds. -/
theorem mem_of_bounds (h : p.bounds e = .ok (lower, upper)) (hx : p.Solves x) :
    lower ≤ e.eval x ∧ e.eval x ≤ upper := by
  have hmem := boundsFrom_mem (bounds_eq_ok.1 h).1 hx (Int.le_refl e.constant) (Int.le_refl _)
  unfold Affine.eval
  rw [Scalar.ofInt_int, Int.add_comm]
  exact hmem

theorem le_of_boundsFrom {ts : List Term} {interval b : Int × Int}
    (h : p.boundsFrom ts interval = .ok b) (hle : interval.1 ≤ interval.2) : b.1 ≤ b.2 := by
  induction ts generalizing interval with
  | nil =>
    cases h
    exact hle
  | cons t ts ih =>
    obtain ⟨c, -, h⟩ := boundsFrom_cons h
    refine ih h ?_
    dsimp only
    omega

/-- Bounds are in order, whatever those of the columns are: the ends of every term are. -/
theorem le_of_bounds (h : p.bounds e = .ok (lower, upper)) : lower ≤ upper :=
  le_of_boundsFrom (bounds_eq_ok.1 h).1 (Int.le_refl e.constant)

theorem Grows.bounds (hg : p.Grows q) (h : p.bounds e = .ok (lower, upper)) :
    q.bounds e = .ok (lower, upper) := by
  rw [bounds_eq_ok] at h ⊢
  exact ⟨boundsFrom_of_grows hg h.1, h.2⟩

end Linearization.Ilp
