import Linearization.Ilp.Enforce
import Linearization.Proofs.Ilp.Steps
import Mathlib.Algebra.Order.BigOperators.Group.List
import Mathlib.Tactic.Linarith

/-!
# Exactness of guarded relations

`enforce r guards` imposes exactly that `r` holds where every guard is true
(`imposes_of_enforce`). The heart is `eval_relax_nonpositive`: a form relaxed by its upper bound is
at most zero as soon as one guard is false, and keeps its value while all of them are true.
-/

namespace Linearization.Lowering

open Ilp Literal

variable {p q : Ilp} {e d : Affine} {guards : List Literal} {x : Assignment} {u : Unit}

/-! ## Rows without guards -/

theorem steady_addContradiction : Steady addContradiction := fun p hp =>
  (steady_trueLiteral p).bind (fun l q h => preserves_addRow (by
    intro t ht
    rw [List.mem_singleton] at ht
    subst ht
    exact (isTruth_of_trueLiteral hp h).column_lt)) hp

theorem imposes_of_addContradiction (hp : p.WellFormed) (h : addContradiction p = .ok u q)
    {C : Assignment → Prop} (hC : ∀ x, p.Solves x → ¬ C x) : p.Imposes q C where
  grows := steady_addContradiction.grows hp h
  wellFormed := steady_addContradiction.wellFormed hp h
  sound x hx := by
    unfold addContradiction at h
    simp only [bind_eq_ok, addRow_eq_ok] at h
    obtain ⟨l, r, hl, rfl⟩ := h
    obtain ⟨hr, hrow⟩ := solves_withRow.1 hx
    have htrue := (defines_of_trueLiteral hp hl).sound x hr
    have hzero : Term.sum x [⟨l.column, 1⟩] ≤ 0 := hrow.2 0 rfl
    rw [Term.sum_cons, Term.sum_nil] at hzero
    unfold Literal.Holds at htrue
    rw [eval_toAffine, if_pos (column_of_trueLiteral hp hl).1] at htrue
    dsimp only at hzero
    omega
  complete x hx hc := absurd hc (hC x hx)

theorem bounds_of_isEmpty {lower upper : Int} (h : p.bounds e = .ok (lower, upper))
    (he : e.terms.isEmpty) : lower = e.constant ∧ upper = e.constant := by
  have hb := (Ilp.bounds_eq_ok.1 h).1
  rw [List.isEmpty_iff.1 he] at hb
  cases hb
  exact ⟨rfl, rfl⟩

theorem eval_eq_constant (he : e.terms.isEmpty) (x : Assignment) : e.eval x = e.constant := by
  unfold Affine.eval
  rw [List.isEmpty_iff.1 he]
  simp

theorem checked_eq_ok {v w : Int} (h : Word.checked v = .ok w) : w = v := by
  unfold Word.checked at h
  split at h
  · exact (Except.ok.inj h).symm
  · cases h

theorem steady_addUnlessImplied (implied : Int → Int → Bool) (least : Int → Option Int)
    (e : Affine) : Steady (addUnlessImplied implied least e) := fun p =>
  (steady_bounds e p).bind fun ⟨lower, upper⟩ q h => by
    obtain ⟨hb, rfl⟩ := bounds_eq_ok.1 h
    dsimp only
    split
    · exact Keeps.pure _ p
    split
    · exact steady_addContradiction p
    · refine (steady_liftM _ p).bind fun side q hside => ?_
      obtain ⟨-, rfl⟩ := liftM_eq_ok.1 hside
      exact preserves_addRow (below_of_bounds hb)

/-- The row is imposed, if whoever leaves it out is right about the values between the bounds. -/
theorem imposes_of_addUnlessImplied {implied : Int → Int → Bool} {least : Int → Option Int}
    {D : Int → Prop}
    (himplied : ∀ {lower upper v}, implied lower upper → lower ≤ v → v ≤ upper → D v)
    (hconstant : ∀ {v}, ¬ implied v v → ¬ D v)
    (hrow : ∀ {constant v}, (∀ l, least (-constant) = some l → l ≤ v) ∧ v ≤ -constant ↔
      D (v + constant))
    (hp : p.WellFormed) (h : addUnlessImplied implied least e p = .ok u q) :
    p.Imposes q fun x => D (e.eval x) := by
  unfold addUnlessImplied at h
  simp only [bind_eq_ok, bounds_eq_ok] at h
  obtain ⟨⟨lower, upper⟩, _, ⟨hb, rfl⟩, h⟩ := h
  dsimp only at h
  split at h
  · rename_i hleft
    obtain ⟨-, rfl⟩ := pure_eq_ok.1 h
    exact Imposes.refl hp fun x hx => himplied hleft (mem_of_bounds hb hx).1 (mem_of_bounds hb hx).2
  split at h
  · rename_i hleft hempty
    refine imposes_of_addContradiction hp h fun x _ => ?_
    obtain ⟨rfl, rfl⟩ := bounds_of_isEmpty hb hempty
    rw [eval_eq_constant hempty]
    exact hconstant hleft
  · simp only [bind_eq_ok, liftM_eq_ok, addRow_eq_ok] at h
    obtain ⟨side, _, ⟨hside, rfl⟩, rfl⟩ := h
    refine Imposes.congr (Extends.withRow hp (below_of_bounds hb)) fun x _ => ?_
    rw [checked_eq_ok hside]
    simp only [Row.Holds, Row.activity, Option.mem_def, Option.some.injEq, forall_eq']
    exact hrow

theorem imposes_of_addNonpositive (hp : p.WellFormed) (h : addNonpositive e p = .ok u q) :
    p.Imposes q fun x => e.eval x ≤ 0 := by
  refine imposes_of_addUnlessImplied (D := (· ≤ 0)) (fun hle _ hv => ?_) (fun hnot => ?_) ?_ hp h
  · exact Int.le_trans hv (of_decide_eq_true hle)
  · simpa using hnot
  · intro constant v
    simp
    omega

theorem imposes_of_addZero (hp : p.WellFormed) (h : addZero e p = .ok u q) :
    p.Imposes q fun x => e.eval x = 0 := by
  refine imposes_of_addUnlessImplied (D := (· = 0)) (fun hzero hl hu => ?_) (fun hnot => ?_) ?_ hp h
  · obtain ⟨rfl, rfl⟩ := of_decide_eq_true hzero
    exact Int.le_antisymm hu hl
  · simpa using hnot
  · intro constant v
    simp
    omega

/-! ## Relaxed rows -/

/-- The number of guards that are false, for guards with values zero and one. -/
def missing (guards : List Literal) (x : Assignment) : Int :=
  (guards.map fun g => 1 - g.toAffine.eval x).sum

theorem eval_of_relax {slack : Int} (h : relax slack guards e = .ok d) (x : Assignment) :
    d.eval x = e.eval x - slack * missing guards x := by
  rw [Int.sub_eq_add_neg, ← Int.neg_mul]
  refine Affine.eval_of_foldlM (fun {f f' g} hstep => ?_) h
  cases hscale : g.negate.toAffine.scale slack with
  | error error =>
    rw [hscale] at hstep
    cases hstep
  | ok scaled =>
    rw [hscale] at hstep
    have hminus : f.minus scaled = .ok f' := hstep
    rw [Affine.eval_of_minus hminus, Affine.eval_of_scale hscale, eval_toAffine_negate, Int.neg_mul,
      Int.sub_eq_add_neg]

theorem missing_nonneg (hg : ∀ g ∈ guards, p.IsTruth g) (hx : p.Solves x) :
    0 ≤ missing guards x := by
  refine List.sum_nonneg fun v hv => ?_
  obtain ⟨g, hmem, rfl⟩ := List.mem_map.1 hv
  rcases (hg g hmem).eval hx with h | h <;> omega

theorem missing_eq_zero (h : AllHold guards x) : missing guards x = 0 := by
  refine List.sum_eq_zero fun v hv => ?_
  obtain ⟨g, hmem, rfl⟩ := List.mem_map.1 hv
  have : g.toAffine.eval x = 1 := h g hmem
  omega

theorem one_le_missing (hg : ∀ g ∈ guards, p.IsTruth g) (hx : p.Solves x)
    (h : ¬ AllHold guards x) : 1 ≤ missing guards x := by
  induction guards with
  | nil => exact absurd allHold_nil h
  | cons g gs ih =>
    have hrest := missing_nonneg (fun k hk => hg k (List.mem_cons_of_mem _ hk)) hx
    rw [allHold_cons, not_and_or] at h
    have hsum : missing (g :: gs) x = 1 - g.toAffine.eval x + missing gs x := by
      simp [missing]
    rcases (hg g List.mem_cons_self).eval hx with hzero | hone
    · omega
    · have := ih (fun k hk => hg k (List.mem_cons_of_mem _ hk)) (h.resolve_left fun hn => hn hone)
      omega

/-- Relaxed by its upper bound, a form is at most zero as soon as one guard is false. -/
theorem eval_relax_nonpositive {lower upper : Int} (hb : p.bounds e = .ok (lower, upper))
    (hupper : 0 < upper) (hg : ∀ g ∈ guards, p.IsTruth g) (hd : relax upper guards e = .ok d)
    (hx : p.Solves x) : d.eval x ≤ 0 ↔ (AllHold guards x → e.eval x ≤ 0) := by
  rw [eval_of_relax hd]
  by_cases h : AllHold guards x
  · rw [missing_eq_zero h, Int.mul_zero, Int.sub_zero]
    exact ⟨fun he _ => he, fun he => he h⟩
  · have hmissing := one_le_missing hg hx h
    have he := (mem_of_bounds hb hx).2
    have hslack : upper * 1 ≤ upper * missing guards x :=
      Int.mul_le_mul_of_nonneg_left hmissing (Int.le_of_lt hupper)
    constructor
    · exact fun _ hall => absurd hall h
    · intro _
      omega

theorem steady_enforceNonpositive (e : Affine) (guards : List Literal) :
    Steady (enforceNonpositive e guards) :=
  (steady_bounds e).bind fun b => by
    obtain ⟨lower, upper⟩ := b
    dsimp only
    split
    · exact Keeps.pure _
    · exact (steady_liftM _).bind fun d => steady_addUnlessImplied _ _ d

/-- The form is at most zero where every guard is true. -/
theorem imposes_of_enforceNonpositive (hp : p.WellFormed) (hg : ∀ g ∈ guards, p.IsTruth g)
    (h : enforceNonpositive e guards p = .ok u q) :
    p.Imposes q fun x => AllHold guards x → e.eval x ≤ 0 := by
  unfold enforceNonpositive at h
  simp only [bind_eq_ok, bounds_eq_ok] at h
  obtain ⟨⟨lower, upper⟩, _, ⟨hb, rfl⟩, h⟩ := h
  dsimp only at h
  split at h
  · rename_i hupper
    obtain ⟨-, rfl⟩ := pure_eq_ok.1 h
    exact Imposes.refl hp fun x hx _ => Int.le_trans (mem_of_bounds hb hx).2 hupper
  · rename_i hupper
    simp only [bind_eq_ok, liftM_eq_ok] at h
    obtain ⟨d, _, ⟨hd, rfl⟩, h⟩ := h
    exact (imposes_of_addNonpositive hp h).congr fun x hx =>
      eval_relax_nonpositive hb (Int.not_le.1 hupper) hg hd hx

/-! ## Inequations -/

theorem steady_enforceNonzero (e : Affine) (guards : List Literal) :
    Steady (enforceNonzero e guards) :=
  (steady_bounds e).bind fun b => by
    obtain ⟨lower, upper⟩ := b
    dsimp only
    split
    · exact Keeps.pure _
    split
    · exact (steady_liftM _).bind fun n => (steady_liftM _).bind fun d =>
        steady_enforceNonpositive d guards
    split
    · exact (steady_liftM _).bind fun d => steady_enforceNonpositive d guards
    · refine (steady_auxiliaryBool _).bind fun below => (steady_liftM _).bind fun d => ?_
      exact (steady_enforceNonpositive d _).bind fun _ => (steady_liftM _).bind fun n =>
        (steady_liftM _).bind fun d' => steady_enforceNonpositive d' _

theorem areTruths_append {l : Literal} (hg : ∀ g ∈ guards, p.IsTruth g) (hl : p.IsTruth l) :
    ∀ g ∈ guards ++ [l], p.IsTruth g := by
  intro g hmem
  rcases List.mem_append.1 hmem with hmem | hmem
  · exact hg g hmem
  · rw [List.mem_singleton] at hmem
    rwa [hmem]

/-- A new literal under which the form is negative, and under whose complement it is positive. -/
theorem imposes_ne_zero_of_sides {r t : Ilp} {below : Literal} {lower upper : Int} {d' : Affine}
    {u' : Unit} (hp : p.WellFormed) (hg : ∀ g ∈ guards, p.IsTruth g)
    (hb : p.bounds e = .ok (lower, upper)) (hbelow : auxiliaryBool "ne" p = .ok below q)
    (hd : ∀ x : Assignment, d.eval x = e.eval x + 1)
    (hd' : ∀ x : Assignment, d'.eval x = -e.eval x + 1)
    (h : enforceNonpositive d (guards ++ [below]) q = .ok u r)
    (h' : enforceNonpositive d' (guards ++ [below.negate]) r = .ok u' t) :
    p.Imposes t fun x => AllHold guards x → e.eval x ≠ 0 := by
  have htruth := isTruth_of_auxiliaryBool hbelow
  have hq := (steady_auxiliaryBool _).wellFormed hp hbelow
  have hgrows := (steady_auxiliaryBool _).grows hp hbelow
  have hg₁ : ∀ g ∈ guards, q.IsTruth g := fun g hmem => (hg g hmem).mono hgrows
  have hneg : q.Imposes r fun x => AllHold (guards ++ [below]) x → e.eval x < 0 :=
    (imposes_of_enforceNonpositive hq (areTruths_append hg₁ htruth) h).congr fun x _ => by
      rw [hd, Int.add_one_le_iff]
  have hpos : r.Imposes t fun x => AllHold (guards ++ [below.negate]) x → 0 < e.eval x :=
    (imposes_of_enforceNonpositive hneg.wellFormed
      (areTruths_append (fun g hmem => (hg₁ g hmem).mono hneg.grows)
        (isTruth_negate.2 (htruth.mono hneg.grows))) h').congr fun x _ => by
      rw [hd']
      exact imp_congr Iff.rfl (by omega)
  have hbe : e.Below q.columns.size := (below_of_bounds hb).mono hgrows.size_le
  have hlocal : Local q.columns.size fun x =>
      AllHold (guards ++ [below.negate]) x → 0 < e.eval x :=
    (local_allHold fun g hmem =>
      (areTruths_append hg₁ (isTruth_negate.2 htruth) g hmem).column_lt).imp
        fun x y hxy => by rw [hbe.eval_congr hxy]
  refine (extends_of_auxiliaryBool hp hbelow (hneg.trans hpos hlocal) fun x hx hn => ?_).weaken
    fun x hx hsides hall => ?_
  · -- the new literal is chosen to be true where the form is negative
    refine ⟨e.eval x < 0, fun y hxy hy hl => ?_⟩
    rw [← (below_of_bounds hb).eval_congr hxy, allHold_append, allHold_append, allHold_cons,
      allHold_cons, htruth.holds_negate hy, hl, ← local_allHold (fun g hmem =>
        (hg g hmem).column_lt) x y hxy]
    refine ⟨fun h => h.2.1, fun h => ?_⟩
    have hne := hn h.1
    have hnot := h.2.1
    omega
  · have hq := (hneg.grows.trans hpos.grows).solves hx
    by_cases hl : below.Holds x
    · have := hsides.1 (allHold_append.2 ⟨hall, by simpa using hl⟩)
      omega
    · have := hsides.2 (allHold_append.2 ⟨hall, by simpa [htruth.holds_negate hq] using hl⟩)
      omega

/-- The form is not zero where every guard is true. -/
theorem imposes_of_enforceNonzero (hp : p.WellFormed) (hg : ∀ g ∈ guards, p.IsTruth g)
    (h : enforceNonzero e guards p = .ok u q) :
    p.Imposes q fun x => AllHold guards x → e.eval x ≠ 0 := by
  unfold enforceNonzero at h
  simp only [bind_eq_ok, bounds_eq_ok] at h
  obtain ⟨⟨lower, upper⟩, _, ⟨hb, rfl⟩, h⟩ := h
  dsimp only at h
  split at h
  · -- the bounds exclude zero
    obtain ⟨-, rfl⟩ := pure_eq_ok.1 h
    refine Imposes.refl hp fun x hx _ => ?_
    have := mem_of_bounds hb hx
    omega
  split at h
  · -- only the positive side is left
    simp only [bind_eq_ok, liftM_eq_ok] at h
    obtain ⟨n, _, ⟨hn, rfl⟩, d, _, ⟨hd, rfl⟩, h⟩ := h
    refine (imposes_of_enforceNonpositive hp hg h).congr fun x hx => imp_congr Iff.rfl ?_
    have := mem_of_bounds hb hx
    rw [Affine.eval_of_plus hd, Affine.eval_of_negated hn, Affine.eval_const]
    omega
  split at h
  · -- only the negative side is left
    simp only [bind_eq_ok, liftM_eq_ok] at h
    obtain ⟨d, _, ⟨hd, rfl⟩, h⟩ := h
    refine (imposes_of_enforceNonpositive hp hg h).congr fun x hx => imp_congr Iff.rfl ?_
    have := mem_of_bounds hb hx
    rw [Affine.eval_of_plus hd, Affine.eval_const]
    omega
  · simp only [bind_eq_ok, liftM_eq_ok] at h
    obtain ⟨below, q₁, hbelow, d, _, ⟨hd, rfl⟩, _, q₂, h₂, n, _, ⟨hn, rfl⟩, d', _, ⟨hd', rfl⟩,
      h₃⟩ := h
    exact imposes_ne_zero_of_sides hp hg hb hbelow (Affine.eval_of_plus hd)
      (fun x => by rw [Affine.eval_of_plus hd', Affine.eval_of_negated hn, Affine.eval_const])
      h₂ h₃

/-! ## Relations -/

theorem steady_enforce (r : Relation) (guards : List Literal) : Steady (enforce r guards) :=
  (steady_liftM _).bind fun e => by
    split
    · exact steady_enforceNonpositive e guards
    · exact (steady_liftM _).bind fun d => steady_enforceNonpositive d guards
    · exact (steady_liftM _).bind fun d => steady_enforceNonpositive d guards
    · exact (steady_liftM _).bind fun n => (steady_liftM _).bind fun d =>
        steady_enforceNonpositive d guards
    · split
      · exact steady_addUnlessImplied _ _ e
      · exact (steady_enforceNonpositive e guards).bind fun _ => (steady_liftM _).bind fun n =>
          steady_enforceNonpositive n guards
    · exact steady_enforceNonzero e guards

theorem below_of_enforceNonpositive (h : enforceNonpositive e guards p = .ok u q) :
    e.Below p.columns.size := by
  unfold enforceNonpositive at h
  simp only [bind_eq_ok, bounds_eq_ok] at h
  obtain ⟨_, _, ⟨hb, -⟩, -⟩ := h
  exact below_of_bounds hb

/-- An equation is one row, or one row for each side where there are guards. -/
theorem imposes_zero_of_enforce (hp : p.WellFormed) (hg : ∀ g ∈ guards, p.IsTruth g)
    (h : (if guards.isEmpty then addZero e else do
      enforceNonpositive e guards
      enforceNonpositive (← e.negated) guards) p = .ok u q) :
    p.Imposes q fun x => AllHold guards x → e.eval x = 0 := by
  split at h
  · rename_i hempty
    rw [List.isEmpty_iff.1 hempty]
    exact (imposes_of_addZero hp h).congr fun x _ => by simp
  · simp only [bind_eq_ok, liftM_eq_ok] at h
    obtain ⟨_, q₁, h₁, n, _, ⟨hn, rfl⟩, h₂⟩ := h
    have hle := imposes_of_enforceNonpositive hp hg h₁
    have hge := imposes_of_enforceNonpositive hle.wellFormed
      (fun g hmem => (hg g hmem).mono hle.grows) h₂
    have hbe := below_of_enforceNonpositive h₁
    refine (hle.trans hge ?_).congr fun x _ => ?_
    · refine (local_allHold fun g hmem => (hg g hmem).column_lt).imp fun x y hxy => ?_
      rw [Affine.eval_of_negated hn, Affine.eval_of_negated hn, hbe.eval_congr hxy]
    · rw [← imp_and, Affine.eval_of_negated hn]
      refine imp_congr Iff.rfl ?_
      omega

/-- The relation holds where every guard is true. -/
theorem imposes_of_enforce {r : Relation} (hp : p.WellFormed) (hg : ∀ g ∈ guards, p.IsTruth g)
    (h : enforce r guards p = .ok u q) : p.Imposes q fun x => AllHold guards x → r.Holds x := by
  unfold enforce at h
  simp only [bind_eq_ok, liftM_eq_ok] at h
  obtain ⟨e, _, ⟨he, rfl⟩, h⟩ := h
  suffices p.Imposes q fun x => AllHold guards x → r.op.Holds (e.eval x) 0 from
    this.congr fun x _ => imp_congr Iff.rfl (r.holds_iff_difference he x).symm
  obtain ⟨lhs, op, rhs⟩ := r
  cases op with
  | le => exact imposes_of_enforceNonpositive hp hg h
  | lt =>
    simp only [bind_eq_ok, liftM_eq_ok] at h
    obtain ⟨d, _, ⟨hd, rfl⟩, h⟩ := h
    refine (imposes_of_enforceNonpositive hp hg h).congr fun x _ => imp_congr Iff.rfl ?_
    rw [Affine.eval_of_plus hd, Affine.eval_const]
    exact Int.add_one_le_iff
  | ge =>
    simp only [bind_eq_ok, liftM_eq_ok] at h
    obtain ⟨d, _, ⟨hd, rfl⟩, h⟩ := h
    refine (imposes_of_enforceNonpositive hp hg h).congr fun x _ => imp_congr Iff.rfl ?_
    rw [Affine.eval_of_negated hd]
    show _ ↔ e.eval x ≥ 0
    omega
  | gt =>
    simp only [bind_eq_ok, liftM_eq_ok] at h
    obtain ⟨n, _, ⟨hn, rfl⟩, d, _, ⟨hd, rfl⟩, h⟩ := h
    refine (imposes_of_enforceNonpositive hp hg h).congr fun x _ => imp_congr Iff.rfl ?_
    rw [Affine.eval_of_plus hd, Affine.eval_of_negated hn, Affine.eval_const]
    show _ ↔ e.eval x > 0
    omega
  | eq => exact imposes_zero_of_enforce hp hg h
  | ne => exact imposes_of_enforceNonzero hp hg h

theorem imposes_and_of_enforce {r : Relation} {t : Ilp} {C : Assignment → Prop}
    (h : p.Imposes q C) (hg : ∀ g ∈ guards, p.IsTruth g) (hr : r.Below p.columns.size)
    (h' : enforce r guards q = .ok u t) :
    p.Imposes t fun x => C x ∧ (AllHold guards x → r.Holds x) :=
  h.trans (imposes_of_enforce h.wellFormed (fun g hmem => (hg g hmem).mono h.grows) h')
    ((local_allHold fun g hmem => (hg g hmem).column_lt).imp (Relation.local_holds hr))

theorem imposes_of_require {r : Relation} (hp : p.WellFormed) (h : require r p = .ok u q) :
    p.Imposes q r.Holds :=
  (imposes_of_enforce hp (List.forall_mem_nil _) h).congr fun x _ => by simp

end Linearization.Lowering
