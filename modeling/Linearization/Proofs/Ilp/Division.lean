import Linearization.Proofs.Ilp.Arithmetic

/-!
# Exactness of division

For each divisor the rows say that dividend, divisor, quotient and remainder satisfy the division
equation with a remainder smaller than the divisor; together with the sign of the remainder this
leaves exactly the truncated quotient and its remainder (`tdiv_tmod_iff`). Both lie within the
bounds of their columns, so `divide` excludes nothing (`divides_of_divide`).
-/

namespace Linearization

/-! ## Truncated division of integers -/

/-- The remainder is smaller than the divisor and does not have the opposite sign of the dividend.
-/
structure IsRemainder (a b r : Int) : Prop where
  upper : r ≤ (b.natAbs : Int) - 1
  lower : -((b.natAbs : Int) - 1) ≤ r
  sign : 0 ≤ a ∧ 0 ≤ r ∨ a ≤ 0 ∧ r ≤ 0

/-- The division equation and a remainder determine quotient and remainder. -/
theorem tdiv_tmod_iff {a b q r : Int} (hb : b ≠ 0) :
    a = b * q + r ∧ IsRemainder a b r ↔ q = a.tdiv b ∧ r = a.tmod b := by
  constructor
  · rintro ⟨heq, hupper, hlower, ⟨ha, hr⟩ | ⟨ha, hr⟩⟩
    · obtain ⟨hq, hr⟩ := (Int.tdiv_tmod_unique ha hb (q := q) (r := r)).2 (by omega)
      exact ⟨hq.symm, hr.symm⟩
    · obtain ⟨hq, hr⟩ := (Int.tdiv_tmod_unique' ha hb (q := q) (r := r)).2 (by omega)
      exact ⟨hq.symm, hr.symm⟩
  · rintro ⟨rfl, rfl⟩
    rcases Int.le_total 0 a with ha | ha
    · obtain ⟨heq, hr, hlt⟩ := (Int.tdiv_tmod_unique ha hb).1 ⟨rfl, rfl⟩
      exact ⟨by omega, by omega, by omega, .inl ⟨ha, hr⟩⟩
    · obtain ⟨heq, hlt, hr⟩ := (Int.tdiv_tmod_unique' ha hb).1 ⟨rfl, rfl⟩
      exact ⟨by omega, by omega, by omega, .inr ⟨ha, hr⟩⟩

/-- The quotient is no larger than the largest dividend by the smallest divisor. -/
theorem natAbs_tdiv_le {a b : Int} {largest smallest : Nat} (ha : a.natAbs ≤ largest)
    (hb : smallest ≤ b.natAbs) (hpos : 0 < smallest) :
    -(largest : Int).tdiv smallest ≤ a.tdiv b ∧ a.tdiv b ≤ (largest : Int).tdiv smallest := by
  have hdiv : a.natAbs / b.natAbs ≤ largest / smallest := Nat.div_le_div ha hb (by omega)
  have habs : (a.tdiv b).natAbs = a.natAbs / b.natAbs := Int.natAbs_tdiv a b
  have hcast : (largest : Int).tdiv smallest = ((largest / smallest : Nat) : Int) := rfl
  omega

theorem tdiv_mem {v w aLower aUpper bLower bUpper bound : Int} (hv : aLower ≤ v ∧ v ≤ aUpper)
    (hw : bLower ≤ w ∧ w ≤ bUpper) (hne : ¬ (bLower ≤ 0 ∧ bUpper ≥ 0))
    (hbound : bound = (max (aLower.natAbs : Int) aUpper.natAbs).tdiv
      (min (bLower.natAbs : Int) bUpper.natAbs)) :
    -bound ≤ v.tdiv w ∧ v.tdiv w ≤ bound := by
  have hlargest : max (aLower.natAbs : Int) aUpper.natAbs =
      ((max aLower.natAbs aUpper.natAbs : Nat) : Int) := by omega
  have hsmallest : min (bLower.natAbs : Int) bUpper.natAbs =
      ((min bLower.natAbs bUpper.natAbs : Nat) : Int) := by omega
  rw [hbound, hlargest, hsmallest]
  exact natAbs_tdiv_le (by omega) (by omega) (by omega)

theorem tmod_mem {v w aLower aUpper bLower bUpper bound : Int} (hv : aLower ≤ v ∧ v ≤ aUpper)
    (hw : bLower ≤ w ∧ w ≤ bUpper) (hne : w ≠ 0)
    (hbound : bound = min (max (bLower.natAbs : Int) bUpper.natAbs - 1)
      (max (aLower.natAbs : Int) aUpper.natAbs)) :
    (if aLower < 0 then -bound else 0) ≤ v.tmod w ∧
      v.tmod w ≤ if aUpper > 0 then bound else 0 := by
  obtain ⟨-, hupper, hlower, hsign⟩ := (tdiv_tmod_iff (a := v) hne).2 ⟨rfl, rfl⟩
  have habs : (v.tmod w).natAbs ≤ v.natAbs := by
    rw [Int.natAbs_tmod]
    exact Nat.mod_le _ _
  constructor <;> split <;> omega

namespace Lowering

open Ilp Literal

variable {p q : Ilp} {a b c e : Affine} {l : Literal} {x y : Assignment} {u : Unit}

/-! ## The cases of a divisor -/

/-- In every solution the cases whose guards are true are those of the value of the divisor, and
there is one. -/
structure AreCases (p : Ilp) (b : Affine) (cases : List (Int × List Literal)) : Prop where
  truth : ∀ case ∈ cases, ∀ g ∈ case.2, p.IsTruth g
  exists_case : ∀ x, p.Solves x → ∃ case ∈ cases, AllHold case.2 x
  value : ∀ x, p.Solves x → ∀ case ∈ cases, AllHold case.2 x → case.1 = b.eval x

theorem AreCases.mono {cases : List (Int × List Literal)} (h : AreCases p b cases)
    (hg : p.Grows q) : AreCases q b cases where
  truth case hcase g hmem := (h.truth case hcase g hmem).mono hg
  exists_case x hx := h.exists_case x (hg.solves hx)
  value x hx := h.value x (hg.solves hx)

theorem steady_divisorCases (b : Affine) : Steady (divisorCases b) := by
  unfold divisorCases
  split
  · exact Keeps.pure _
  · exact (steady_encode b).bind fun _ => Keeps.pure _

theorem areCases_of_divisorCases {cases : List (Int × List Literal)} (hp : p.WellFormed)
    (h : divisorCases b p = .ok cases q) :
    AreCases q b cases ∧ p.Defines q fun _ => True := by
  unfold divisorCases at h
  cases hconst : b.asConstant with
  | some k =>
    rw [hconst] at h
    obtain ⟨rfl, rfl⟩ := pure_eq_ok.1 h
    refine ⟨⟨by simp, fun x _ => ⟨_, List.mem_cons_self, allHold_nil⟩, fun x _ case hcase _ => ?_⟩,
      Extends.refl hp fun _ _ => trivial⟩
    rw [List.mem_singleton] at hcase
    rw [hcase, Affine.eval_of_asConstant hconst]
  | none =>
    rw [hconst] at h
    simp only [bind_eq_ok, pure_eq_ok] at h
    obtain ⟨encoding, _, h, rfl, rfl⟩ := h
    obtain ⟨hencodes, hdefines⟩ := encodes_of_encode hp h
    refine ⟨⟨?_, fun x hx => ?_, fun x hx => ?_⟩, hdefines.weaken fun _ _ _ => trivial⟩
    · intro case hcase
      obtain ⟨entry, hmem, rfl⟩ := List.mem_map.1 hcase
      simpa using hencodes.truth entry hmem
    · obtain ⟨⟨entry, hmem, heq⟩, hselects⟩ := hencodes.selects x hx
      exact ⟨(entry.1, [entry.2]), List.mem_map_of_mem hmem, by
        simpa using (hselects entry hmem).2 heq⟩
    · intro case hcase hholds
      obtain ⟨entry, hmem, rfl⟩ := List.mem_map.1 hcase
      exact ((hencodes.selects x hx).2 entry hmem).1 (by simpa using hholds)

/-! ## The rows of a division -/

theorem steady_divideEach (a : Affine) (quotient remainder : Nat)
    (cases : List (Int × List Literal)) : Steady (divideEach a quotient remainder cases) := by
  induction cases with
  | nil => exact Keeps.pure _
  | cons case rest ih =>
    exact (steady_liftM _).bind fun _ => (steady_enforce _ _).bind fun _ =>
      (steady_liftM _).bind fun _ => (steady_liftM _).bind fun _ => (steady_enforce _ _).bind
        fun _ => (steady_liftM _).bind fun _ => (steady_enforce _ _).bind fun _ => ih

/-- The equation of a division and the bounds of its remainder. -/
def DividesBy (a : Affine) (quotient remainder : Nat) (divisor : Int) (x : Assignment) : Prop :=
  a.eval x = divisor * x quotient + x remainder ∧ x remainder ≤ (divisor.natAbs : Int) - 1 ∧
    -((divisor.natAbs : Int) - 1) ≤ x remainder

theorem local_dividesBy {n quotient remainder : Nat} {divisor : Int} (ha : a.Below n)
    (hquotient : quotient < n) (hremainder : remainder < n) :
    Local n (DividesBy a quotient remainder divisor) := by
  intro x y hxy
  unfold DividesBy
  rw [ha.eval_congr hxy, hxy _ hquotient, hxy _ hremainder]

theorem imposes_of_divideEach {quotient remainder : Nat} {cases : List (Int × List Literal)}
    (hp : p.WellFormed) (ha : a.Below p.columns.size) (hquotient : quotient < p.columns.size)
    (hremainder : remainder < p.columns.size)
    (ht : ∀ case ∈ cases, ∀ g ∈ case.2, p.IsTruth g)
    (h : divideEach a quotient remainder cases p = .ok u q) :
    p.Imposes q fun x => ∀ case ∈ cases, AllHold case.2 x →
      DividesBy a quotient remainder case.1 x := by
  induction cases generalizing p with
  | nil =>
    obtain ⟨-, rfl⟩ := pure_eq_ok.1 h
    exact Imposes.refl hp fun x _ => List.forall_mem_nil _
  | cons case rest ih =>
    obtain ⟨divisor, guards⟩ := case
    rw [List.forall_mem_cons] at ht
    simp only [divideEach, bind_eq_ok, liftM_eq_ok] at h
    obtain ⟨rebuilt, _, ⟨hrebuilt, rfl⟩, _, q₁, h₁, w, _, ⟨hw, rfl⟩, bound, _, ⟨hbound, rfl⟩, _, q₂,
      h₂, least, _, ⟨hleast, rfl⟩, _, q₃, h₃, h₄⟩ := h
    have hr := Affine.below_ofColumn.2 hremainder
    have hcase := imposes_and_of_enforce (imposes_and_of_enforce (imposes_of_enforce hp ht.1 h₁)
      ht.1 ⟨hr, Affine.below_const _ _⟩ h₂) ht.1 ⟨hr, Affine.below_const _ _⟩ h₃
    have hrest := ih hcase.wellFormed (ha.mono hcase.grows.size_le)
      (Nat.lt_of_lt_of_le hquotient hcase.grows.size_le)
      (Nat.lt_of_lt_of_le hremainder hcase.grows.size_le)
      (fun case hcase' g hmem => (ht.2 case hcase' g hmem).mono hcase.grows) h₄
    refine (hcase.trans hrest fun x y hxy => ?_).congr fun x _ => ?_
    · refine forall₂_congr fun case hmem => imp_congr ?_ ?_
      · exact local_allHold (fun g hg => (ht.2 case hmem g hg).column_lt) x y hxy
      · exact local_dividesBy ha hquotient hremainder x y hxy
    · rw [List.forall_mem_cons]
      refine and_congr_left' ?_
      simp only [DividesBy, Relation.Holds, Comparison.Holds, Affine.eval_of_plus hrebuilt,
        Affine.eval_single, Affine.eval_ofColumn, Affine.eval_const, plain_eq_ok hleast,
        plain_eq_ok hbound, checkedAbs_eq_ok hw]
      tauto

theorem steady_alignSign (a : Affine) (lower upper : Int) (remainder : Nat) :
    Steady (alignSign a lower upper remainder) := by
  unfold alignSign
  split
  · exact (steady_reify _).bind fun _ => (steady_enforce _ _).bind fun _ => steady_enforce _ _
  · exact Keeps.pure _

/-- Where the bounds leave the sign of the dividend open, the remainder has it too. -/
theorem imposes_of_alignSign {lower upper : Int} {remainder : Nat} (hp : p.WellFormed)
    (ha : a.Below p.columns.size) (hremainder : remainder < p.columns.size)
    (h : alignSign a lower upper remainder p = .ok u q) :
    p.Imposes q fun x => lower < 0 ∧ 0 < upper →
      (0 ≤ a.eval x → 0 ≤ x remainder) ∧ (a.eval x < 0 → x remainder ≤ 0) := by
  unfold alignSign at h
  split at h
  · rename_i hopen
    simp only [bind_eq_ok] at h
    obtain ⟨l, q₁, h₁, _, q₂, h₂, h₃⟩ := h
    have hl := reifies_of_reify hp h₁
    have hboth := imposes_of_enforce_both hl.defines.wellFormed hl.truth
      ⟨Affine.below_ofColumn.2 (Nat.lt_of_lt_of_le hremainder hl.defines.grows.size_le),
        Affine.below_const _ _⟩ h₂ h₃
    refine Imposes.of_defines hl.defines hboth (fun x _ hlx => ?_) fun x y hxy => ?_
    · rw [hlx]
      simp [Relation.Holds, Comparison.Holds, hopen.1, hopen.2]
    · rw [ha.eval_congr hxy, hxy _ hremainder]
  · rename_i hopen
    obtain ⟨-, rfl⟩ := pure_eq_ok.1 h
    exact Imposes.refl hp fun x _ hcontra => absurd hcontra hopen

/-! ## Quotient and remainder -/

/-- The rows of a division leave the truncated quotient and its remainder, given the bounds of the
remainder. -/
theorem division_iff {quotient remainder : Nat} {cases : List (Int × List Literal)}
    {aLower aUpper bound : Int} (hcases : AreCases p b cases)
    (ha : ∀ x, p.Solves x → aLower ≤ a.eval x ∧ a.eval x ≤ aUpper)
    (hb : ∀ x, p.Solves x → b.eval x ≠ 0)
    (hr : ∀ x, p.Solves x → (if aLower < 0 then -bound else 0) ≤ x remainder ∧
      x remainder ≤ if aUpper > 0 then bound else 0) (hx : p.Solves x) :
    ((aLower < 0 ∧ 0 < aUpper →
        (0 ≤ a.eval x → 0 ≤ x remainder) ∧ (a.eval x < 0 → x remainder ≤ 0)) ∧
      ∀ case ∈ cases, AllHold case.2 x → DividesBy a quotient remainder case.1 x) ↔
      x quotient = (a.eval x).tdiv (b.eval x) ∧ x remainder = (a.eval x).tmod (b.eval x) := by
  have hax := ha x hx
  have hrx := hr x hx
  constructor
  · rintro ⟨hsign, hdivides⟩
    obtain ⟨case, hmem, hholds⟩ := hcases.exists_case x hx
    obtain ⟨heq, hupper, hlower⟩ := hdivides case hmem hholds
    rw [hcases.value x hx case hmem hholds] at heq hupper hlower
    refine (tdiv_tmod_iff (hb x hx)).1 ⟨heq, hupper, hlower, ?_⟩
    split at hrx <;> split at hrx <;> omega
  · intro hresult
    obtain ⟨heq, hupper, hlower, hsign⟩ := (tdiv_tmod_iff (hb x hx)).2 hresult
    refine ⟨fun _ => ⟨fun h => ?_, fun h => by omega⟩, fun case hmem hholds => ?_⟩
    · rw [hresult.2]
      exact Int.tmod_nonneg _ h
    · rw [hcases.value x hx case hmem hholds]
      exact ⟨heq, hupper, hlower⟩

theorem steady_variableDivision (a b : Affine) : Steady (variableDivision a b) :=
  (steady_bounds b).bind fun ⟨bLower, bUpper⟩ => by
    dsimp only
    split
    · exact Keeps.throw _
    split
    · exact Keeps.throw _
    · refine (steady_divisorCases b).bind fun cases => (steady_liftM _).bind fun _ =>
        (steady_liftM _).bind fun _ => (steady_bounds a).bind fun ⟨aLower, aUpper⟩ =>
          (steady_liftM _).bind fun _ => (steady_liftM _).bind fun _ => ?_
      dsimp only
      split
      · exact Keeps.throw _
      · exact (steady_liftM _).bind fun _ => (steady_liftM _).bind fun _ =>
          (steady_liftM _).bind fun _ => (steady_auxiliaryInt _ _ _).bind fun _ =>
            (steady_liftM _).bind fun _ => (steady_auxiliaryInt _ _ _).bind fun _ =>
              (steady_alignSign _ _ _ _).bind fun _ => (steady_divideEach _ _ _ _).bind fun _ =>
                Keeps.pure _

/-- The two forms are the truncated quotient and its remainder, and the divisor is not zero. -/
structure Divides (p q : Ilp) (a b quotient remainder : Affine) : Prop where
  below_quotient : quotient.Below q.columns.size
  below_remainder : remainder.Below q.columns.size
  defines : p.Defines q fun x => b.eval x ≠ 0 ∧ quotient.eval x = (a.eval x).tdiv (b.eval x) ∧
    remainder.eval x = (a.eval x).tmod (b.eval x)

/-- The rows of a division impose the truncated quotient and its remainder. -/
theorem imposes_of_divisionRows {cases : List (Int × List Literal)} {i j : Nat} {r : Ilp}
    {u' : Unit} {aLower aUpper bound : Int} (hp : p.WellFormed) (hcases : AreCases p b cases)
    (ha : a.Below p.columns.size) (hi : i < p.columns.size) (hj : j < p.columns.size)
    (hmem : ∀ x, p.Solves x → aLower ≤ a.eval x ∧ a.eval x ≤ aUpper)
    (hzero : ∀ x, p.Solves x → b.eval x ≠ 0)
    (hremainder : ∀ x, p.Solves x → (if aLower < 0 then -bound else 0) ≤ x j ∧
      x j ≤ if aUpper > 0 then bound else 0)
    (h₁ : alignSign a aLower aUpper j p = .ok u q) (h₂ : divideEach a i j cases q = .ok u' r) :
    p.Imposes r fun x =>
      x i = (a.eval x).tdiv (b.eval x) ∧ x j = (a.eval x).tmod (b.eval x) := by
  have hsign := imposes_of_alignSign hp ha hj h₁
  have hgrows := hsign.grows
  have heach := imposes_of_divideEach hsign.wellFormed (ha.mono hgrows.size_le)
    (Nat.lt_of_lt_of_le hi hgrows.size_le) (Nat.lt_of_lt_of_le hj hgrows.size_le)
    (hcases.mono hgrows).truth h₂
  have hlocal : Local p.columns.size fun x =>
      ∀ case ∈ cases, AllHold case.2 x → DividesBy a i j case.1 x := by
    refine fun x y hxy => forall₂_congr fun case hcase => imp_congr ?_ ?_
    · exact local_allHold (fun g hg => (hcases.truth case hcase g hg).column_lt) x y hxy
    · exact local_dividesBy ha hi hj x y hxy
  exact (hsign.trans heach hlocal).congr fun x hx =>
    division_iff hcases hmem hzero hremainder hx

theorem divides_of_rows {cases : List (Int × List Literal)} {i j : Nat} {q₁ q₂ q₃ : Ilp}
    {u' : Unit} {purpose purpose' : String} {aLower aUpper bLower bUpper bound : Int}
    (hp : p.WellFormed) (hcases : AreCases p b cases)
    (ha : p.bounds a = .ok (aLower, aUpper)) (hb : p.bounds b = .ok (bLower, bUpper))
    (hne : ¬ (bLower ≤ 0 ∧ bUpper ≥ 0))
    (hbound : bound = min (max (bLower.natAbs : Int) bUpper.natAbs - 1)
      (max (aLower.natAbs : Int) aUpper.natAbs))
    (h₁ : auxiliaryInt purpose
      (-(max (aLower.natAbs : Int) aUpper.natAbs).tdiv (min (bLower.natAbs : Int) bUpper.natAbs))
      ((max (aLower.natAbs : Int) aUpper.natAbs).tdiv (min (bLower.natAbs : Int) bUpper.natAbs)) p =
        .ok i q₁)
    (h₂ : auxiliaryInt purpose' (if aLower < 0 then -bound else 0) (if aUpper > 0 then bound else 0)
      q₁ = .ok j q₂)
    (h₃ : alignSign a aLower aUpper j q₂ = .ok u q₃)
    (h₄ : divideEach a i j cases q₃ = .ok u' q) :
    Divides p q a b (.ofColumn i) (.ofColumn j) := by
  have hq₁ := (steady_auxiliaryInt _ _ _).wellFormed hp h₁
  have hq₂ := (steady_auxiliaryInt _ _ _).wellFormed hq₁ h₂
  have hgrows₁ := (steady_auxiliaryInt _ _ _).grows hp h₁
  have hgrows₂ := (steady_auxiliaryInt _ _ _).grows hq₁ h₂
  have hgrows := hgrows₁.trans hgrows₂
  obtain ⟨hi, -⟩ := column_of_auxiliaryInt h₁
  obtain ⟨hj, hremainder⟩ := column_of_auxiliaryInt h₂
  have hi₂ := Nat.lt_of_lt_of_le hi hgrows₂.size_le
  have hzero : ∀ x, p.Solves x → b.eval x ≠ 0 := fun x hx => by
    have := mem_of_bounds hb hx
    omega
  have hboth := imposes_of_divisionRows hq₂ (hcases.mono hgrows)
    ((below_of_bounds ha).mono hgrows.size_le) hi₂ hj
    (fun x hx => mem_of_bounds ha (hgrows.solves hx)) (fun x hx => hzero x (hgrows.solves hx))
    hremainder h₃ h₄
  have hmod := extends_of_auxiliaryInt hq₁ h₂ hboth
    (M := fun x => x i = (a.eval x).tdiv (b.eval x)) fun x hx hxi => by
      have hxp := hgrows₁.solves hx
      obtain ⟨hlow, hhigh⟩ := tmod_mem (mem_of_bounds ha hxp) (mem_of_bounds hb hxp) (hzero x hxp)
        hbound
      refine ⟨_, hlow, hhigh, fun y hxy _ hy => ?_⟩
      rw [← hxy i hi, ← ((below_of_bounds ha).mono hgrows₁.size_le).eval_congr hxy,
        ← ((below_of_bounds hb).mono hgrows₁.size_le).eval_congr hxy]
      exact ⟨hxi, hy⟩
  have hdiv := extends_of_auxiliaryInt hp h₁ hmod (M := fun _ => True) fun x hx _ => by
    obtain ⟨hlow, hhigh⟩ := tdiv_mem (mem_of_bounds ha hx) (mem_of_bounds hb hx) hne rfl
    refine ⟨_, hlow, hhigh, fun y hxy _ hy => ?_⟩
    rwa [← (below_of_bounds ha).eval_congr hxy, ← (below_of_bounds hb).eval_congr hxy]
  refine ⟨Affine.below_ofColumn.2 (Nat.lt_of_lt_of_le hi₂ hboth.grows.size_le),
    Affine.below_ofColumn.2 (Nat.lt_of_lt_of_le hj hboth.grows.size_le),
    hdiv.weaken fun x hx hresult => ?_⟩
  rw [Affine.eval_ofColumn, Affine.eval_ofColumn]
  exact ⟨hzero x (hdiv.grows.solves hx), hresult⟩

theorem divides_of_variableDivision {d r : Affine} (hp : p.WellFormed)
    (h : variableDivision a b p = .ok (d, r) q) : Divides p q a b d r := by
  unfold variableDivision at h
  simp only [bind_eq_ok, bounds_eq_ok] at h
  obtain ⟨⟨bLower, bUpper⟩, _, ⟨hb, rfl⟩, h⟩ := h
  dsimp only at h
  split at h
  · cases throw_eq_ok.1 h
  split at h
  · cases throw_eq_ok.1 h
  rename_i hzero hopen
  simp only [bind_eq_ok, bounds_eq_ok, liftM_eq_ok] at h
  obtain ⟨cases, q₁, h₁, atLower, _, ⟨hatLower, rfl⟩, atUpper, _, ⟨hatUpper, rfl⟩,
    ⟨aLower, aUpper⟩, _, ⟨ha, rfl⟩, left, _, ⟨hleft, rfl⟩, right, _, ⟨hright, rfl⟩, h⟩ := h
  rw [checkedAbs_eq_ok hatLower, checkedAbs_eq_ok hatUpper, checkedAbs_eq_ok hleft,
    checkedAbs_eq_ok hright] at h
  dsimp only at h
  split at h
  · cases throw_eq_ok.1 h
  rename_i hsmallest
  simp only [bind_eq_ok, liftM_eq_ok, pure_eq_ok, Prod.mk.injEq] at h
  obtain ⟨qb, _, ⟨hqb, rfl⟩, rb, _, ⟨hrb, rfl⟩, lq, _, ⟨hlq, rfl⟩, i, q₂, h₂, lr, _, ⟨hlr, rfl⟩, j,
    q₃, h₃, _, q₄, h₄, _, _, h₅, ⟨rfl, rfl⟩, rfl⟩ := h
  rw [plain_eq_ok hlq, plain_eq_ok hqb] at h₂
  rw [plain_eq_ok hlr, plain_eq_ok hrb] at h₃
  obtain ⟨hcases, hdefines⟩ := areCases_of_divisorCases hp h₁
  have hrows := divides_of_rows hdefines.wellFormed hcases ha (hdefines.grows.bounds hb) hopen rfl
    h₂ h₃ h₄ h₅
  exact ⟨hrows.below_quotient, hrows.below_remainder,
    (hdefines.trans hrows.defines).weaken fun _ _ h => h.2⟩

theorem steady_divide (a b : Affine) : Steady (divide a b) := by
  unfold divide
  split
  · split
    · exact Keeps.throw _
    · exact (steady_liftM _).bind fun _ => Keeps.pure _
  · exact steady_variableDivision a b

/-- The truncated quotient and its remainder; the divisor is then not zero. -/
theorem divides_of_divide {d r : Affine} (hp : p.WellFormed)
    (h : divide a b p = .ok (d, r) q) : Divides p q a b d r := by
  unfold divide at h
  cases ha : a.asConstant with
  | none =>
    rw [ha] at h
    exact divides_of_variableDivision hp h
  | some v =>
  cases hb : b.asConstant with
  | none =>
    rw [ha, hb] at h
    exact divides_of_variableDivision hp h
  | some w =>
    rw [ha, hb] at h
    dsimp only at h
    split at h
    · cases throw_eq_ok.1 h
    rename_i hw
    simp only [bind_eq_ok, liftM_eq_ok, pure_eq_ok, Prod.mk.injEq] at h
    obtain ⟨k, _, ⟨hk, rfl⟩, ⟨rfl, rfl⟩, rfl⟩ := h
    refine ⟨Affine.below_const _ _, Affine.below_const _ _, Extends.refl hp fun x _ => ?_⟩
    rw [Affine.eval_of_asConstant ha, Affine.eval_of_asConstant hb, Affine.eval_const,
      Affine.eval_const, checked_eq_ok hk]
    exact ⟨hw, rfl, rfl⟩

theorem steady_quotient (a b : Affine) : Steady (quotient a b) :=
  (steady_divide a b).bind fun _ => Keeps.pure _

theorem steady_remainder (a b : Affine) : Steady (remainder a b) :=
  (steady_divide a b).bind fun _ => Keeps.pure _

theorem computes_of_quotient (hp : p.WellFormed) (h : quotient a b p = .ok c q) :
    p.Computes q c (fun x => (a.eval x).tdiv (b.eval x)) ∧ ∀ x, q.Solves x → b.eval x ≠ 0 := by
  simp only [quotient, bind_eq_ok, pure_eq_ok] at h
  obtain ⟨⟨d, r⟩, _, h, rfl, rfl⟩ := h
  have hdivides := divides_of_divide hp h
  exact ⟨⟨hdivides.below_quotient, hdivides.defines.weaken fun _ _ h => h.2.1⟩,
    fun x hx => (hdivides.defines.sound x hx).1⟩

theorem computes_of_remainder (hp : p.WellFormed) (h : remainder a b p = .ok c q) :
    p.Computes q c (fun x => (a.eval x).tmod (b.eval x)) ∧ ∀ x, q.Solves x → b.eval x ≠ 0 := by
  simp only [remainder, bind_eq_ok, pure_eq_ok] at h
  obtain ⟨⟨d, r⟩, _, h, rfl, rfl⟩ := h
  have hdivides := divides_of_divide hp h
  exact ⟨⟨hdivides.below_remainder, hdivides.defines.weaken fun _ _ h => h.2.2⟩,
    fun x hx => (hdivides.defines.sound x hx).1⟩

end Lowering

end Linearization
