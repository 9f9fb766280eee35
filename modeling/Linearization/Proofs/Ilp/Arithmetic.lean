import Linearization.Ilp.Arithmetic
import Linearization.Proofs.Ilp.Coerce
import Linearization.Proofs.Ilp.Encoding

/-!
# Exactness of the non-linear arithmetic

Every operation excludes nothing and computes its exact result (`computes_of_absolute`,
`computes_of_product`, `computes_of_power`). Each has the same shape: a new
column with bounds that hold the result, and rows that leave the result as its only value.
-/

namespace Linearization.Lowering

open Ilp Literal

variable {p q : Ilp} {a b c e : Affine} {l : Literal} {x y : Assignment} {u : Unit}

theorem checkedAbs_eq_ok {v w : Int} (h : Word.checkedAbs v = .ok w) : w = v.natAbs :=
  checked_eq_ok h

theorem plain_eq_ok {v w : Int} (h : Word.plain v = .ok w) : w = v := by
  unfold Word.plain at h
  split at h
  · exact (Except.ok.inj h).symm
  · cases h

/-! ## Guarded equations for one column -/

/-- Two guarded relations on columns of the program, one under a literal and one under its
complement. -/
theorem imposes_of_enforce_both {r s : Relation} {t : Ilp} {u' : Unit} (hp : p.WellFormed)
    (hl : p.IsTruth l) (hs : s.Below p.columns.size) (h : enforce r [l] p = .ok u q)
    (h' : enforce s [l.negate] q = .ok u' t) :
    p.Imposes t fun x => (l.Holds x → r.Holds x) ∧ (¬ l.Holds x → s.Holds x) := by
  have hfirst := imposes_of_enforce hp (by simpa using hl) h
  refine (imposes_and_of_enforce hfirst (by simpa using hl) hs h').congr fun x hx => ?_
  simp only [allHold_cons, allHold_nil, and_true, hl.holds_negate hx]

/-! ## Absolute value -/

theorem steady_absolute (e : Affine) : Steady (absolute e) :=
  (steady_bounds e).bind fun b => by
    obtain ⟨lower, upper⟩ := b
    dsimp only
    split
    · exact Keeps.pure e
    split
    · exact steady_liftM _
    · exact (steady_liftM _).bind fun _ => (steady_auxiliaryInt _ _ _).bind fun _ =>
        (steady_auxiliaryBool _).bind fun _ => (steady_enforce _ _).bind fun _ =>
          (steady_liftM _).bind fun _ => (steady_enforce _ _).bind fun _ => Keeps.pure _

/-- The literal of the sign makes a column the absolute value. -/
theorem imposes_natAbs_of_sign {q₁ q₂ q₃ : Ilp} {i : Nat} {n : Affine} {u' : Unit}
    (hp : p.WellFormed) (he : e.Below p.columns.size) (hi : i < p.columns.size)
    (hpos : ∀ x, p.Solves x → 0 ≤ x i) (hn : e.negated = .ok n)
    (h₁ : auxiliaryBool "sign" p = .ok l q₁)
    (h₂ : enforce ⟨.ofColumn i, .eq, e⟩ [l] q₁ = .ok u q₂)
    (h₃ : enforce ⟨.ofColumn i, .eq, n⟩ [l.negate] q₂ = .ok u' q₃) :
    p.Imposes q₃ fun x => x i = (e.eval x).natAbs := by
  have hle := ((steady_auxiliaryBool _).grows hp h₁).size_le
  have hboth := imposes_of_enforce_both ((steady_auxiliaryBool _).wellFormed hp h₁)
    (isTruth_of_auxiliaryBool h₁) ⟨Affine.below_ofColumn.2 (Nat.lt_of_lt_of_le hi hle),
      Affine.Below.of_negated hn (he.mono hle)⟩ h₂ h₃
  simp only [Relation.Holds, Comparison.Holds, Affine.eval_ofColumn, Affine.eval_of_negated hn]
    at hboth
  refine (extends_of_auxiliaryBool hp h₁ hboth fun x hx hn => ⟨0 ≤ e.eval x, ?_⟩).weaken
    fun x hx hsign => ?_
  · intro y hxy _ hl
    rw [hl, ← hxy i hi, ← he.eval_congr hxy, hn]
    omega
  · have hx₁ := hpos x (((steady_auxiliaryBool _).grows hp h₁).solves (hboth.grows.solves hx))
    by_cases hl : l.Holds x
    · have := hsign.1 hl
      omega
    · have := hsign.2 hl
      omega

theorem computes_of_absolute (hp : p.WellFormed) (h : absolute e p = .ok c q) :
    p.Computes q c fun x => (e.eval x).natAbs := by
  unfold absolute at h
  simp only [bind_eq_ok, bounds_eq_ok] at h
  obtain ⟨⟨lower, upper⟩, _, ⟨hb, rfl⟩, h⟩ := h
  have hbelow := below_of_bounds hb
  dsimp only at h
  split at h
  · rename_i hlower
    obtain ⟨rfl, rfl⟩ := pure_eq_ok.1 h
    refine Computes.refl hp hbelow fun x hx => ?_
    have hmem := mem_of_bounds hb hx
    omega
  split at h
  · rename_i hupper
    obtain ⟨hn, rfl⟩ := liftM_eq_ok.1 h
    refine Computes.refl hp (Affine.Below.of_negated hn hbelow) fun x hx => ?_
    have hmem := mem_of_bounds hb hx
    rw [Affine.eval_of_negated hn]
    omega
  · simp only [bind_eq_ok, liftM_eq_ok, pure_eq_ok] at h
    obtain ⟨w, _, ⟨hw, rfl⟩, i, q₁, hi, l, q₂, hl, _, q₃, h₁, n, _, ⟨hn, rfl⟩, _, _, h₂, rfl,
      rfl⟩ := h
    have hgrows := (steady_auxiliaryInt _ _ _).grows hp hi
    have hq₁ := (steady_auxiliaryInt _ _ _).wellFormed hp hi
    obtain ⟨hcolumn, hrange⟩ := column_of_auxiliaryInt hi
    have himposes := imposes_natAbs_of_sign hq₁ (hbelow.mono hgrows.size_le) hcolumn
      (fun x hx => (hrange x hx).1) hn hl h₁ h₂
    refine computes_of_auxiliaryInt hp hi himposes (fun x y hxy => ?_) fun x hx => ?_
    · rw [hbelow.eval_congr hxy]
    · have hmem := mem_of_bounds hb hx
      rw [checkedAbs_eq_ok hw]
      omega

/-! ## Products -/

theorem steady_literalTimes (l : Literal) (e : Affine) : Steady (literalTimes l e) :=
  (steady_bounds e).bind fun _ => (steady_auxiliaryInt _ _ _).bind fun _ =>
    (steady_enforce _ _).bind fun _ => (steady_enforce _ _).bind fun _ => Keeps.pure _

theorem computes_of_literalTimes (hp : p.WellFormed) (hl : p.IsTruth l)
    (h : literalTimes l e p = .ok c q) :
    p.Computes q c fun x => l.toAffine.eval x * e.eval x := by
  unfold literalTimes at h
  simp only [bind_eq_ok, bounds_eq_ok, pure_eq_ok] at h
  obtain ⟨⟨lower, upper⟩, _, ⟨hb, rfl⟩, i, q₁, hi, _, q₂, h₁, _, _, h₂, rfl, rfl⟩ := h
  have hgrows := (steady_auxiliaryInt _ _ _).grows hp hi
  have hboth := imposes_of_enforce_both ((steady_auxiliaryInt _ _ _).wellFormed hp hi)
    (hl.mono hgrows) ⟨Affine.below_ofColumn.2 (column_of_auxiliaryInt hi).1,
      Affine.below_const _ _⟩ h₁ h₂
  refine computes_of_auxiliaryInt hp hi (hboth.congr fun x hx => ?_) (fun x y hxy => ?_)
    fun x hx => ?_
  · simp only [Relation.Holds, Comparison.Holds, Affine.eval_ofColumn, Affine.eval_const,
      hl.eval_eq_ofTruth (hgrows.solves hx)]
    by_cases h : l.Holds x <;> simp [h]
  · rw [Literal.eval_congr hl.column_lt hxy, (below_of_bounds hb).eval_congr hxy]
  · have hmem := mem_of_bounds hb hx
    dsimp only
    rcases hl.eval hx with h | h <;> rw [h] <;> omega

theorem steady_multiplyEach (i : Nat) (e : Affine) (encoding : Encoding) :
    Steady (multiplyEach i e encoding) := by
  induction encoding with
  | nil => exact Keeps.pure _
  | cons entry rest ih =>
    exact (steady_liftM _).bind fun _ => (steady_enforce _ _).bind fun _ => ih

/-- Under the literal of each value, the column is the multiple of the form by that value. -/
theorem imposes_of_multiplyEach {i : Nat} {encoding : Encoding} (hp : p.WellFormed)
    (hi : i < p.columns.size) (he : e.Below p.columns.size)
    (ht : ∀ entry ∈ encoding, p.IsTruth entry.2) (h : multiplyEach i e encoding p = .ok u q) :
    p.Imposes q fun x => ∀ entry ∈ encoding, entry.2.Holds x → x i = entry.1 * e.eval x := by
  induction encoding generalizing p with
  | nil =>
    obtain ⟨-, rfl⟩ := pure_eq_ok.1 h
    exact Imposes.refl hp fun x _ => List.forall_mem_nil _
  | cons entry rest ih =>
    obtain ⟨value, l⟩ := entry
    rw [List.forall_mem_cons] at ht
    simp only [multiplyEach, bind_eq_ok, liftM_eq_ok] at h
    obtain ⟨c, _, ⟨hc, rfl⟩, _, r, h₁, h₂⟩ := h
    have hfirst := imposes_of_enforce hp (by simpa using ht.1) h₁
    have hrest := ih hfirst.wellFormed (Nat.lt_of_lt_of_le hi hfirst.grows.size_le)
      (he.mono hfirst.grows.size_le) (fun entry hmem => (ht.2 entry hmem).mono hfirst.grows) h₂
    refine (hfirst.trans hrest fun x y hxy => ?_).congr fun x _ => ?_
    · refine forall₂_congr fun entry hmem => imp_congr ?_ ?_
      · exact holds_congr (ht.2 entry hmem).column_lt hxy
      · rw [hxy i hi, he.eval_congr hxy]
    · simp [Relation.Holds, Comparison.Holds, Affine.eval_of_scale hc]

/-- A product lies between the smallest and the largest product of ends of the intervals. -/
theorem mul_mem_corners {v w aLower aUpper bLower bUpper : Int} (hv : aLower ≤ v ∧ v ≤ aUpper)
    (hw : bLower ≤ w ∧ w ≤ bUpper) :
    let corners := [aLower * bUpper, aUpper * bLower, aUpper * bUpper]
    corners.foldl min (aLower * bLower) ≤ v * w ∧ v * w ≤ corners.foldl max (aLower * bLower) := by
  have hinner := mul_mem_interval (k := v) hw.1 hw.2
  have hlow := mul_mem_interval (k := bLower) hv.1 hv.2
  have hhigh := mul_mem_interval (k := bUpper) hv.1 hv.2
  rw [Int.mul_comm bLower, Int.mul_comm bLower, Int.mul_comm bLower] at hlow
  rw [Int.mul_comm bUpper, Int.mul_comm bUpper, Int.mul_comm bUpper] at hhigh
  simp only [List.foldl_cons, List.foldl_nil]
  omega

/-- The column is the product of a form and an encoded form. -/
theorem computes_of_encoded {few many : Affine} {encoding : Encoding} {lower upper : Int}
    {purpose : String} {i : Nat} {q₁ q₂ : Ilp} (hp : p.WellFormed)
    (hfew : few.Below p.columns.size) (hmany : many.Below p.columns.size)
    (hrange : ∀ x, p.Solves x → lower ≤ few.eval x * many.eval x ∧ few.eval x * many.eval x ≤ upper)
    (h₁ : encode few p = .ok encoding q₁) (h₂ : auxiliaryInt purpose lower upper q₁ = .ok i q₂)
    (h₃ : multiplyEach i many encoding q₂ = .ok u q) :
    p.Computes q (.ofColumn i) fun x => few.eval x * many.eval x := by
  obtain ⟨hencodes, hdefines⟩ := encodes_of_encode hp h₁
  have hgrows₁ := hdefines.grows
  have hgrows₂ := (steady_auxiliaryInt _ _ _).grows hdefines.wellFormed h₂
  have hgrows := hgrows₁.trans hgrows₂
  have heach := imposes_of_multiplyEach
    ((steady_auxiliaryInt _ _ _).wellFormed hdefines.wellFormed h₂) (column_of_auxiliaryInt h₂).1
    (hmany.mono hgrows.size_le) (fun entry hmem => (hencodes.truth entry hmem).mono hgrows₂) h₃
  have hproduct := heach.congr (D := fun x => x i = few.eval x * many.eval x) fun x hx => by
    obtain ⟨⟨entry, hmem, heq⟩, hselects⟩ := hencodes.selects x (hgrows₂.solves hx)
    constructor
    · intro h
      rw [h entry hmem ((hselects entry hmem).2 heq), heq]
    · intro h entry hmem hl
      rw [(hselects entry hmem).1 hl, h]
  have hcomputes := computes_of_auxiliaryInt hdefines.wellFormed h₂ hproduct
    (fun x y hxy => by
      rw [(hfew.mono hgrows₁.size_le).eval_congr hxy, (hmany.mono hgrows₁.size_le).eval_congr hxy])
    fun x hx => hrange x (hgrows₁.solves hx)
  exact ⟨hcomputes.below, (hdefines.trans hcomputes.defines).weaken fun _ _ h => h.2⟩

theorem steady_encodedProduct (a b : Affine) : Steady (encodedProduct a b) :=
  (steady_bounds a).bind fun ⟨aLower, aUpper⟩ => (steady_bounds b).bind fun ⟨bLower, bUpper⟩ =>
    (steady_liftM _).bind fun _ => (steady_liftM _).bind fun _ => by
      dsimp only
      split <;> exact (steady_encode _).bind fun _ => (steady_auxiliaryInt _ _ _).bind fun _ =>
        (steady_multiplyEach _ _ _).bind fun _ => Keeps.pure _

theorem computes_of_encodedProduct (hp : p.WellFormed) (h : encodedProduct a b p = .ok c q) :
    p.Computes q c fun x => a.eval x * b.eval x := by
  unfold encodedProduct at h
  simp only [bind_eq_ok, bounds_eq_ok, liftM_eq_ok] at h
  obtain ⟨⟨aLower, aUpper⟩, _, ⟨ha, rfl⟩, ⟨bLower, bUpper⟩, _, ⟨hb, rfl⟩, lower, _, ⟨hlower, rfl⟩,
    upper, _, ⟨hupper, rfl⟩, h⟩ := h
  have hrange : ∀ x, p.Solves x → lower ≤ a.eval x * b.eval x ∧ a.eval x * b.eval x ≤ upper := by
    intro x hx
    rw [checked_eq_ok hlower, checked_eq_ok hupper]
    exact mul_mem_corners (mem_of_bounds ha hx) (mem_of_bounds hb hx)
  dsimp only at h
  split at h
  · simp only [pure_eq_ok] at h
    obtain ⟨_, _, h₁, i, _, h₂, _, _, h₃, rfl, rfl⟩ := h
    exact computes_of_encoded hp (below_of_bounds ha) (below_of_bounds hb) hrange h₁ h₂ h₃
  · simp only [pure_eq_ok] at h
    obtain ⟨_, _, h₁, i, _, h₂, _, _, h₃, rfl, rfl⟩ := h
    refine (computes_of_encoded hp (below_of_bounds hb) (below_of_bounds ha) (fun x hx => ?_)
      h₁ h₂ h₃).congr fun x _ => Int.mul_comm _ _
    rw [Int.mul_comm]
    exact hrange x hx

theorem steady_product (a b : Affine) : Steady (product a b) := by
  unfold product
  split
  · exact steady_liftM _
  · exact steady_liftM _
  · refine Keeps.get.bind fun p => (steady_liftM _).bind fun viewA => ?_
    cases viewA with
    | some l => exact steady_literalTimes l b
    | none =>
      refine Keeps.get.bind fun p => (steady_liftM _).bind fun viewB => ?_
      cases viewB with
      | some l => exact steady_literalTimes l a
      | none => exact steady_encodedProduct a b

theorem computes_of_product (hp : p.WellFormed) (ha : a.Below p.columns.size)
    (hb : b.Below p.columns.size) (h : product a b p = .ok c q) :
    p.Computes q c fun x => a.eval x * b.eval x := by
  unfold product at h
  cases hconstA : a.asConstant with
  | some k =>
    rw [hconstA] at h
    obtain ⟨hc, rfl⟩ := liftM_eq_ok.1 h
    refine Computes.refl hp (Affine.Below.of_scale hc hb) fun x _ => ?_
    rw [Affine.eval_of_scale hc, Affine.eval_of_asConstant hconstA]
  | none =>
  cases hconstB : b.asConstant with
  | some k =>
    rw [hconstA, hconstB] at h
    obtain ⟨hc, rfl⟩ := liftM_eq_ok.1 h
    refine Computes.refl hp (Affine.Below.of_scale hc ha) fun x _ => ?_
    rw [Affine.eval_of_scale hc, Affine.eval_of_asConstant hconstB, Int.mul_comm]
  | none =>
  rw [hconstA, hconstB] at h
  simp only [bind_eq_ok, get_eq_ok, liftM_eq_ok] at h
  obtain ⟨_, _, ⟨rfl, rfl⟩, viewA, _, ⟨hviewA, rfl⟩, h⟩ := h
  cases viewA with
  | some l =>
    obtain ⟨htruth, heval⟩ := literalView_eq_some hviewA
    exact (computes_of_literalTimes hp htruth h).congr fun x _ => by rw [heval]
  | none =>
  simp only [bind_eq_ok, get_eq_ok, liftM_eq_ok] at h
  obtain ⟨_, _, ⟨rfl, rfl⟩, viewB, _, ⟨hviewB, rfl⟩, h⟩ := h
  cases viewB with
  | some l =>
    obtain ⟨htruth, heval⟩ := literalView_eq_some hviewB
    exact (computes_of_literalTimes hp htruth h).congr fun x _ => by
      rw [heval, Int.mul_comm]
  | none => exact computes_of_encodedProduct hp h

/-! ## Powers -/

theorem steady_repeatedProduct (base : Affine) (count : Nat) (acc : Affine) :
    Steady (repeatedProduct base count acc) := by
  induction count generalizing acc with
  | zero => exact Keeps.pure acc
  | succ count ih => exact (steady_product acc base).bind ih

theorem computes_of_repeatedProduct {base acc : Affine} {count : Nat} (hp : p.WellFormed)
    (hbase : base.Below p.columns.size) (hacc : acc.Below p.columns.size)
    (h : repeatedProduct base count acc p = .ok c q) :
    p.Computes q c fun x => acc.eval x * base.eval x ^ count := by
  induction count generalizing p acc with
  | zero =>
    obtain ⟨rfl, rfl⟩ := pure_eq_ok.1 h
    exact Computes.refl hp hacc fun x _ => by rw [Int.pow_zero, Int.mul_one]
  | succ count ih =>
    simp only [repeatedProduct, bind_eq_ok] at h
    obtain ⟨d, r, h₁, h₂⟩ := h
    have hfirst := computes_of_product hp hacc hbase h₁
    have hrest := ih hfirst.defines.wellFormed (hbase.mono hfirst.defines.grows.size_le)
      hfirst.below h₂
    obtain ⟨hresult, hd⟩ := hfirst.trans hrest
    refine hresult.congr fun x hx => ?_
    rw [hd.sound x hx, Int.pow_succ']
    ring

theorem steady_power (base : Affine) (exponent : Int) : Steady (power base exponent) := by
  unfold power
  split
  · exact Keeps.throw _
  split
  · exact (steady_liftM _).bind fun _ => Keeps.pure _
  · exact steady_repeatedProduct _ _ _

/-- The power, whose exponent is then not negative. -/
theorem computes_of_power {exponent : Int} (hp : p.WellFormed) (ha : a.Below p.columns.size)
    (h : power a exponent p = .ok c q) :
    0 ≤ exponent ∧ p.Computes q c fun x => a.eval x ^ exponent.toNat := by
  unfold power at h
  split at h
  · cases throw_eq_ok.1 h
  · rename_i hexponent
    refine ⟨by omega, ?_⟩
    cases hconst : a.asConstant with
    | some k =>
      rw [hconst] at h
      simp only [bind_eq_ok, liftM_eq_ok, pure_eq_ok] at h
      obtain ⟨w, _, ⟨hw, rfl⟩, rfl, rfl⟩ := h
      refine Computes.refl hp (Affine.below_const _ _) fun x _ => ?_
      rw [Affine.eval_const, checked_eq_ok hw, Affine.eval_of_asConstant hconst, Int.pow_eq]
    | none =>
      rw [hconst] at h
      refine (computes_of_repeatedProduct hp ha (Affine.below_const _ _) h).congr fun x _ => ?_
      rw [Affine.eval_const, Int.one_mul]

end Linearization.Lowering
