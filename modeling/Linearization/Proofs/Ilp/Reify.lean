import Linearization.Ilp.Reify
import Linearization.Proofs.Ilp.Enforce

/-!
# Exactness of reification

`reify r` excludes no solution and gives a literal that is true exactly where `r` holds
(`reifies_of_reify`), whether the bounds decide the relation or a new literal stands for it.
-/

namespace Linearization

theorem Comparison.holds_of_decided {c : Comparison} {lower upper v : Int} {b : Bool}
    (h : c.decided lower upper = some b) (hl : lower ≤ v) (hu : v ≤ upper) :
    c.Holds v 0 ↔ b = true := by
  cases c <;> simp only [Comparison.decided, Comparison.Holds] at h ⊢ <;>
  · split at h
    · cases h
      simp_all
      omega
    split at h
    · cases h
      simp_all
      omega
    · cases h

namespace Lowering

open Ilp Literal

variable {p q : Ilp} {r : Relation} {l : Literal} {e : Affine} {x : Assignment} {u : Unit}

theorem truth_eq_ok {b : Option Bool} (h : p.truth r = .ok b) :
    ∃ d lower upper, r.difference = .ok d ∧ p.bounds d = .ok (lower, upper) ∧
      b = r.op.decided lower upper := by
  unfold truth at h
  cases hd : r.difference with
  | error _ => rw [hd] at h; cases h
  | ok d =>
    rw [hd] at h
    simp only [bind, Except.bind] at h
    cases hb : p.bounds d with
    | error _ => rw [hb] at h; cases h
    | ok b' =>
      rw [hb] at h
      cases h
      exact ⟨d, b'.1, b'.2, rfl, hb, rfl⟩

theorem local_of_truth {b : Option Bool} (h : p.truth r = .ok b) :
    Local p.columns.size r.Holds := by
  obtain ⟨d, lower, upper, hd, hb, -⟩ := truth_eq_ok h
  intro x y hxy
  show r.Holds x ↔ r.Holds y
  rw [r.holds_iff_difference hd x, r.holds_iff_difference hd y,
    (below_of_bounds hb).eval_congr hxy]

theorem holds_of_truth {b : Bool} (h : p.truth r = .ok (some b)) (hx : p.Solves x) :
    r.Holds x ↔ b = true := by
  obtain ⟨d, lower, upper, hd, hb, hdecided⟩ := truth_eq_ok h
  rw [r.holds_iff_difference hd]
  have hmem := mem_of_bounds hb hx
  exact Comparison.holds_of_decided hdecided.symm hmem.1 hmem.2

theorem steady_reify (r : Relation) : Steady (reify r) :=
  Keeps.get.bind fun p => (steady_liftM _).bind fun b => by
    cases b with
    | some b => exact steady_constantLiteral b
    | none =>
      exact (steady_auxiliaryBool _).bind fun l => (steady_enforce r _).bind fun _ =>
        (steady_enforce _ _).bind fun _ => Keeps.pure l

theorem reify_eq_ok (h : reify r p = .ok l q) :
    (∃ b, p.truth r = .ok (some b) ∧ constantLiteral b p = .ok l q) ∨
      (p.truth r = .ok none ∧ ∃ q₁ q₂ u u', auxiliaryBool "reif" p = .ok l q₁ ∧
        enforce r [l] q₁ = .ok u q₂ ∧ enforce r.negate [l.negate] q₂ = .ok u' q) := by
  unfold reify at h
  simp only [bind_eq_ok, get_eq_ok, liftM_eq_ok] at h
  obtain ⟨_, _, ⟨rfl, rfl⟩, b, _, ⟨hb, rfl⟩, h⟩ := h
  cases b with
  | some b => exact .inl ⟨b, hb, h⟩
  | none =>
    simp only [bind_eq_ok, pure_eq_ok] at h
    obtain ⟨_, q₁, h₁, u, q₂, h₂, u', _, h₃, rfl, rfl⟩ := h
    exact .inr ⟨hb, q₁, q₂, u, u', h₁, h₂, h₃⟩

/-- The literal is true exactly where the relation holds, and nothing is excluded. -/
theorem reifies_of_reify (hp : p.WellFormed) (h : reify r p = .ok l q) :
    p.Reifies q l fun x => r.Holds x := by
  rcases reify_eq_ok h with ⟨b, hb, h⟩ | ⟨hb, q₁, q₂, u, u', h₁, h₂, h₃⟩
  · have hgrows := (steady_constantLiteral b).grows hp h
    exact (reifies_of_constantLiteral hp h).congr fun x hx =>
      (holds_of_truth hb (hgrows.solves hx)).symm
  · have htruth := isTruth_of_auxiliaryBool h₁
    have hgrows := (steady_auxiliaryBool _).grows hp h₁
    have hpos := imposes_of_enforce ((steady_auxiliaryBool _).wellFormed hp h₁)
      (by simpa using htruth) h₂
    have hneg := imposes_of_enforce hpos.wellFormed
      (by simpa using htruth.mono hpos.grows) h₃
    have hlocal : Local q₁.columns.size fun x => AllHold [l.negate] x → r.negate.Holds x := by
      refine (local_allHold (by simpa using htruth.column_lt)).imp fun x y hxy => ?_
      rw [Relation.holds_negate, Relation.holds_negate]
      exact not_congr (local_of_truth hb x y (hxy.mono hgrows.size_le))
    refine ⟨htruth.mono (hpos.grows.trans hneg.grows),
      (extends_of_auxiliaryBool hp h₁ (hpos.trans hneg hlocal) fun x hx _ => ?_).weaken
    fun x hx hsides => ?_⟩
    · refine ⟨r.Holds x, fun y hxy hy hl => ?_⟩
      have hr : r.Holds x ↔ r.Holds y := local_of_truth hb x y hxy
      simp only [allHold_cons, allHold_nil, and_true, htruth.holds_negate hy, hl,
        Relation.holds_negate, hr]
      exact ⟨fun h => h, fun h => h⟩
    · have hq₁ := (hpos.grows.trans hneg.grows).solves hx
      simp only [allHold_cons, allHold_nil, and_true, htruth.holds_negate hq₁,
        Relation.holds_negate] at hsides
      exact ⟨hsides.1, fun hr => Classical.not_not.1 fun hl => hsides.2 hl hr⟩

end Lowering

end Linearization
