import Linearization.Proofs.Ilp.Bounds
import Mathlib.Logic.Function.Basic
import Mathlib.Order.MinMax

/-!
# Bounds are attained

The interval that `bounds` gives is the smallest one that holds the values of the form: both ends
are values of the form where every column lies between its two bounds (`ranges_of_bounds`). Columns
may have their bounds in the wrong order; between them then means between the upper and the lower.
-/

namespace Linearization.Ilp

/-- Every column has a value between its bounds, in whichever order these stand. -/
def Spans (p : Ilp) (x : Assignment) : Prop :=
  ∀ (i : Nat) (c : Column), p.columns[i]? = some c →
    min c.lower c.upper ≤ x i ∧ x i ≤ max c.lower c.upper

/-- The interval holds the values of the form, and its ends are among them. -/
structure Ranges (p : Ilp) (e : Affine) (lower upper : Int) : Prop where
  within : ∀ x, p.Spans x → lower ≤ e.eval x ∧ e.eval x ≤ upper
  least : ∃ x, p.Spans x ∧ e.eval x = lower
  greatest : ∃ x, p.Spans x ∧ e.eval x = upper

/-- The sum of one end of every term. -/
def extreme (p : Ilp) (pick : Int → Int → Int) : List Term → Int
  | [] => 0
  | t :: ts =>
    (p.columns[t.column]?.elim 0 fun c =>
      pick (t.coefficient * c.lower) (t.coefficient * c.upper)) + p.extreme pick ts

variable {p : Ilp} {e : Affine} {ts : List Term} {lower upper : Int} {x : Assignment}
  {pick : Int → Int → Int}

theorem boundsFrom_eq_extreme {interval b : Int × Int} (h : p.boundsFrom ts interval = .ok b) :
    b.1 = interval.1 + p.extreme min ts ∧ b.2 = interval.2 + p.extreme max ts := by
  induction ts generalizing interval with
  | nil =>
    cases h
    simp [extreme]
  | cons t ts ih =>
    obtain ⟨c, hc, h⟩ := boundsFrom_cons h
    obtain ⟨hlower, hupper⟩ := ih h
    simp only [extreme, hc, Option.elim_some]
    omega

theorem sum_update {i : Nat} (h : ∀ t ∈ ts, t.column ≠ i) (x : Assignment) (v : Int) :
    Term.sum (Function.update x i v) ts = Term.sum x ts := by
  induction ts with
  | nil => rfl
  | cons t ts ih =>
    rw [List.forall_mem_cons] at h
    rw [Term.sum_cons, Term.sum_cons, ih h.2, Function.update_of_ne h.1]

theorem exists_spans (p : Ilp) : ∃ x, p.Spans x := by
  refine ⟨fun i => p.columns[i]?.elim 0 Column.lower, fun i c hc => ?_⟩
  simp only [hc, Option.elim_some]
  omega

/-- A column may be moved to one of its ends. -/
theorem Spans.update (hx : p.Spans x) {i : Nat} {v : Int}
    (hv : ∀ c, p.columns[i]? = some c → v = c.lower ∨ v = c.upper) :
    p.Spans (Function.update x i v) := by
  intro j c hc
  by_cases hj : j = i
  · subst hj
    rw [Function.update_self]
    rcases hv c hc with rfl | rfl <;> omega
  · rw [Function.update_of_ne hj]
    exact hx j c hc

/-- By induction on the terms: each moves its own column, which no later one has. -/
theorem exists_sum_eq_extreme (hpick : ∀ a b, pick a b = a ∨ pick a b = b)
    (hs : Term.Sorted ts) : ∃ x, p.Spans x ∧ Term.sum x ts = p.extreme pick ts := by
  induction ts with
  | nil =>
    obtain ⟨x, hx⟩ := p.exists_spans
    exact ⟨x, hx, rfl⟩
  | cons t ts ih =>
    obtain ⟨hlt, hsorted⟩ := List.pairwise_cons.1 hs
    obtain ⟨x, hx, hsum⟩ := ih hsorted
    have hlater : ∀ u ∈ ts, u.column ≠ t.column := fun u hu => (Nat.ne_of_lt (hlt u hu)).symm
    have hmove : ∀ v : Int, (∀ c, p.columns[t.column]? = some c → v = c.lower ∨ v = c.upper) →
        t.coefficient * v = (p.columns[t.column]?.elim 0 fun c =>
          pick (t.coefficient * c.lower) (t.coefficient * c.upper)) →
        ∃ y, p.Spans y ∧ Term.sum y (t :: ts) = p.extreme pick (t :: ts) := by
      intro v hv hterm
      refine ⟨Function.update x t.column v, hx.update hv, ?_⟩
      rw [Term.sum_cons, Function.update_self, sum_update hlater, hsum, hterm, extreme]
    cases hc : p.columns[t.column]? with
    | none => exact hmove 0 (fun c h => by rw [hc] at h; cases h) (by simp [hc])
    | some c =>
      rcases hpick (t.coefficient * c.lower) (t.coefficient * c.upper) with h | h
      · refine hmove c.lower (fun d hd => ?_) (by simp [hc, h])
        cases hc.symm.trans hd
        exact .inl rfl
      · refine hmove c.upper (fun d hd => ?_) (by simp [hc, h])
        cases hc.symm.trans hd
        exact .inr rfl

theorem extreme_le_sum (hx : p.Spans x) (h : ∀ t ∈ ts, t.column < p.columns.size) :
    p.extreme min ts ≤ Term.sum x ts ∧ Term.sum x ts ≤ p.extreme max ts := by
  induction ts with
  | nil => exact ⟨Int.le_refl 0, Int.le_refl 0⟩
  | cons t ts ih =>
    rw [List.forall_mem_cons] at h
    have hrest := ih h.2
    have hc := Array.getElem?_eq_getElem h.1
    have hspans := hx _ _ hc
    have hterm := mul_mem_interval (k := t.coefficient) hspans.1 hspans.2
    simp only [extreme, hc, Option.elim_some, Term.sum_cons]
    rcases Int.le_total p.columns[t.column].lower p.columns[t.column].upper with hle | hle
    · rw [Int.min_eq_left hle, Int.max_eq_right hle] at hterm
      omega
    · rw [Int.min_eq_right hle, Int.max_eq_left hle] at hterm
      omega

/-- Each end is attained where every column stands at the right one of its bounds. -/
theorem ranges_of_below (h : e.Below p.columns.size) :
    p.Ranges e (e.constant + p.extreme min e.terms) (e.constant + p.extreme max e.terms) := by
  have heval : ∀ x : Assignment, e.eval x = e.constant + Term.sum x e.terms := by
    intro x
    unfold Affine.eval
    rw [Scalar.ofInt_int, Int.add_comm]
  refine ⟨fun x hx => ?_, ?_, ?_⟩
  · have hsum := extreme_le_sum hx h
    rw [heval]
    omega
  · obtain ⟨x, hx, hsum⟩ := exists_sum_eq_extreme (p := p) min_choice e.sorted
    exact ⟨x, hx, by rw [heval, hsum]⟩
  · obtain ⟨x, hx, hsum⟩ := exists_sum_eq_extreme (p := p) max_choice e.sorted
    exact ⟨x, hx, by rw [heval, hsum]⟩

/-- The bounds of a form are its smallest and its largest value between the column bounds. -/
theorem ranges_of_bounds (h : p.bounds e = .ok (lower, upper)) : p.Ranges e lower upper := by
  obtain ⟨hlower, hupper⟩ := boundsFrom_eq_extreme (bounds_eq_ok.1 h).1
  dsimp only at hlower hupper
  rw [hlower, hupper]
  exact ranges_of_below (below_of_bounds h)

end Linearization.Ilp
