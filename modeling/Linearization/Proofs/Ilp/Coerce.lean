import Linearization.Ilp.Coerce
import Linearization.Proofs.Ilp.Reify

/-!
# Exactness of coercions

A lowered value has a number under an assignment (`Lowered.value?`), literals and relations as zero
or one. Used as a form it keeps its number (`defines_of_affineOf`); used as a literal it is true
exactly where its number is not zero (`reifies_of_literalOf`).
-/

namespace Linearization

namespace Lowered

/-- The number that a lowered value has under an assignment; a sequence has none. -/
def value? (x : Assignment) : Lowered → Option Int
  | const c => some c
  | literal l => some (l.toAffine.eval x)
  | column i => some (x i)
  | affine e => some (e.eval x)
  | relation r => some (if r.Holds x then 1 else 0)
  | sequence _ => none

/-- The value only uses columns of the program, and its literals stand for truth values. -/
inductive Over (p : Ilp) : Lowered → Prop where
  | const (c : Int) : Over p (const c)
  | literal {l : Literal} (h : p.IsTruth l) : Over p (literal l)
  | column {i : Nat} (h : i < p.columns.size) : Over p (column i)
  | affine {e : Affine} (h : e.Below p.columns.size) : Over p (affine e)
  | relation {r : Relation} (h : r.Below p.columns.size) : Over p (relation r)
  | sequence {items : List Lowered} (h : ∀ v ∈ items, Over p v) : Over p (sequence items)

theorem Over.mono {p q : Ilp} (hg : p.Grows q) {v : Lowered} (h : v.Over p) : v.Over q := by
  induction h with
  | const c => exact .const c
  | literal h => exact .literal (h.mono hg)
  | column h => exact .column (Nat.lt_of_lt_of_le h hg.size_le)
  | affine h => exact .affine (h.mono hg.size_le)
  | relation h => exact .relation ⟨h.1.mono hg.size_le, h.2.mono hg.size_le⟩
  | sequence _ ih => exact .sequence ih

theorem Over.items {p : Ilp} {v : Lowered} (h : v.Over p) : ∀ n ∈ v.items, n.Over p := by
  cases h with
  | sequence h => exact h
  | const c => exact List.forall_mem_singleton.2 (.const c)
  | literal h => exact List.forall_mem_singleton.2 (.literal h)
  | column h => exact List.forall_mem_singleton.2 (.column h)
  | affine h => exact List.forall_mem_singleton.2 (.affine h)
  | relation h => exact List.forall_mem_singleton.2 (.relation h)

theorem Over.value?_congr {p : Ilp} {v : Lowered} (h : v.Over p) {x y : Assignment}
    (hxy : AgreeBelow p.columns.size x y) : v.value? x = v.value? y := by
  cases h with
  | const c => rfl
  | literal h => exact congrArg some (Literal.eval_congr h.column_lt hxy)
  | column h => exact congrArg some (hxy _ h)
  | affine h => exact congrArg some (h.eval_congr hxy)
  | relation h => exact congrArg some (if_congr (Relation.local_holds h x y hxy) rfl rfl)
  | sequence _ => rfl

/-- Both sides are run through cyclically. Where there is a pair, neither side is empty. -/
theorem getElem?_pairUp {left right l r : Lowered} {pairs : List (Lowered × Lowered)} {i : Nat}
    (h : left.pairUp right = some pairs) (hi : pairs[i]? = some (l, r)) :
    0 < left.length ∧ 0 < right.length ∧ left.items[i % left.length]? = some l ∧
      right.items[i % right.length]? = some r := by
  have hlt : ∀ {v n : Lowered} {k : Nat}, v.items[k]? = some n → k < v.length := fun hk =>
    (List.getElem?_eq_some_iff.1 hk).1
  have hpos : ∀ {v n : Lowered} {k : Nat}, v.items[k]? = some n → 0 < v.length := fun hk =>
    Nat.zero_lt_of_lt (hlt hk)
  have hmod : ∀ {v n : Lowered} {k : Nat}, v.items[k]? = some n →
      v.items[k % v.length]? = some n := fun hk => by
    rwa [Nat.mod_eq_of_lt (hlt hk)]
  have hone : ∀ {v n : Lowered}, v.items = [n] → v.items[i % v.length]? = some n := fun hv => by
    rw [length, hv, List.length_singleton, Nat.mod_one]
    rfl
  unfold pairUp at h
  split at h
  · rename_i hl
    cases h
    rw [List.getElem?_map, Option.map_eq_some_iff] at hi
    obtain ⟨r', hr, heq⟩ := hi
    cases heq
    exact ⟨hpos (hone hl), hpos hr, hone hl, hmod hr⟩
  · rename_i hr _
    cases h
    rw [List.getElem?_map, Option.map_eq_some_iff] at hi
    obtain ⟨l', hl, heq⟩ := hi
    cases heq
    exact ⟨hpos hl, hpos (hone hr), hmod hl, hone hr⟩
  · split at h
    · cases h
      obtain ⟨hl, hr⟩ := List.getElem?_zip_eq_some.1 hi
      exact ⟨hpos hl, hpos hr, hmod hl, hmod hr⟩
    · cases h

theorem mem_pairUp {left right : Lowered} {pairs : List (Lowered × Lowered)}
    (h : left.pairUp right = some pairs) :
    ∀ pair ∈ pairs, pair.1 ∈ left.items ∧ pair.2 ∈ right.items := by
  intro pair hpair
  obtain ⟨i, hi⟩ := List.mem_iff_getElem?.1 hpair
  obtain ⟨-, -, hl, hr⟩ := getElem?_pairUp h hi
  exact ⟨List.mem_of_getElem? hl, List.mem_of_getElem? hr⟩

theorem over_ofAffine {p : Ilp} {e : Affine} (h : e.Below p.columns.size) :
    (ofAffine e).Over p := by
  unfold ofAffine
  split
  · exact .const _
  · rename_i i _ hi
    refine .column ?_
    unfold Affine.asColumn at hi
    split at hi
    · rename_i t hterms
      split at hi
      · cases hi
        exact h t (by simp [hterms])
      · cases hi
    · cases hi
  · exact .affine h

@[simp] theorem value?_ofAffine (x : Assignment) (e : Affine) :
    (ofAffine e).value? x = some (e.eval x) := by
  unfold ofAffine
  split
  · rename_i c hc
    rw [Affine.eval_of_asConstant hc]
    rfl
  · rename_i i _ h
    rw [Affine.eval_of_asColumn h]
    rfl
  · rfl

end Lowered

namespace Lowering

open Ilp Literal

variable {p q : Ilp} {l : Literal} {e : Affine} {v : Lowered} {x : Assignment}

/-! ## Literal views -/

theorem literalView_eq_some (h : p.literalView e = .ok (some l)) :
    p.IsTruth l ∧ ∀ x : Assignment, l.toAffine.eval x = e.eval x := by
  unfold literalView at h
  split at h
  · rename_i t hterms
    split at h
    · cases h
    · rename_i c hc
      split at h
      · cases h
      rename_i hbounds
      have hl : 0 ≤ c.lower := by omega
      have hu : c.upper ≤ 1 := by omega
      split at h
      · rename_i ht
        cases h
        refine ⟨⟨c, hc, hl, hu⟩, fun x => ?_⟩
        rw [eval_toAffine, Affine.eval, hterms]
        simp [ht.1, ht.2]
      split at h
      · rename_i ht
        cases h
        refine ⟨⟨c, hc, hl, hu⟩, fun x => ?_⟩
        rw [eval_toAffine, Affine.eval, hterms]
        simp only [ht.1, ht.2, Term.sum_cons, Term.sum_nil, Scalar.ofInt_int, Bool.false_eq_true,
          if_false]
        omega
      · cases h
  · cases h

theorem steady_booleanView (e : Affine) : Steady (booleanView e) :=
  Keeps.get.bind fun p => (steady_liftM _).bind fun view => by
    split
    · exact Keeps.pure _
    · refine (steady_bounds e).bind fun b => ?_
      obtain ⟨lower, upper⟩ := b
      dsimp only
      split
      · exact steady_reify _
      · exact Keeps.throw _

theorem booleanView_eq_ok (h : booleanView e p = .ok l q) :
    (p.literalView e = .ok (some l) ∧ p = q) ∨ ∃ lower upper, p.bounds e = .ok (lower, upper) ∧
      0 ≤ lower ∧ upper ≤ 1 ∧ reify ⟨e, .eq, .const 1⟩ p = .ok l q := by
  unfold booleanView at h
  simp only [bind_eq_ok, get_eq_ok, liftM_eq_ok] at h
  obtain ⟨_, _, ⟨rfl, rfl⟩, view, _, ⟨hview, rfl⟩, h⟩ := h
  cases view with
  | some k =>
    obtain ⟨rfl, rfl⟩ := pure_eq_ok.1 h
    exact .inl ⟨hview, rfl⟩
  | none =>
    simp only [bind_eq_ok, bounds_eq_ok] at h
    obtain ⟨⟨lower, upper⟩, _, ⟨hb, rfl⟩, h⟩ := h
    dsimp only at h
    split at h
    · rename_i hrange
      exact .inr ⟨lower, upper, hb, hrange.1, hrange.2, h⟩
    · cases throw_eq_ok.1 h

theorem holds_iff_ne_zero (hl : p.IsTruth l) (hx : p.Solves x) :
    l.Holds x ↔ l.toAffine.eval x ≠ 0 := by
  unfold Literal.Holds
  rcases hl.eval hx with h | h <;> omega

/-- The literal of a form is true exactly where the form is not zero. -/
theorem reifies_of_booleanView (hp : p.WellFormed) (h : booleanView e p = .ok l q) :
    p.Reifies q l fun x => e.eval x ≠ 0 := by
  rcases booleanView_eq_ok h with ⟨hview, rfl⟩ | ⟨lower, upper, hb, hlower, hupper, h⟩
  · obtain ⟨htruth, heval⟩ := literalView_eq_some hview
    refine ⟨htruth, Extends.refl hp fun x hx => ?_⟩
    rw [holds_iff_ne_zero htruth hx, heval]
  · refine (reifies_of_reify hp h).congr fun x hx => ?_
    have hmem := mem_of_bounds hb (((steady_reify _).grows hp h).solves hx)
    show e.eval x = (Affine.const 1).eval x ↔ _
    rw [Affine.eval_const]
    omega

/-! ## Forms and literals of lowered values -/

theorem steady_affineOf (v : Lowered) : Steady (affineOf v) := by
  cases v with
  | relation r => exact (steady_reify r).bind fun l => Keeps.pure _
  | sequence items => exact Keeps.throw _
  | _ => exact Keeps.pure _

theorem below_of_affineOf (hp : p.WellFormed) (hv : v.Over p) (h : affineOf v p = .ok e q) :
    e.Below q.columns.size := by
  cases hv with
  | const c =>
    obtain ⟨rfl, rfl⟩ := pure_eq_ok.1 h
    exact Affine.below_const _ c
  | literal hl =>
    obtain ⟨rfl, rfl⟩ := pure_eq_ok.1 h
    exact below_toAffine.2 hl.column_lt
  | column hi =>
    obtain ⟨rfl, rfl⟩ := pure_eq_ok.1 h
    exact Affine.below_ofColumn.2 hi
  | affine he =>
    obtain ⟨rfl, rfl⟩ := pure_eq_ok.1 h
    exact he
  | relation _ =>
    simp only [affineOf, bind_eq_ok, pure_eq_ok] at h
    obtain ⟨l, _, h, rfl, rfl⟩ := h
    exact below_toAffine.2 (reifies_of_reify hp h).truth.column_lt
  | sequence _ => cases throw_eq_ok.1 h

theorem defines_of_affineOf (hp : p.WellFormed) (h : affineOf v p = .ok e q) :
    p.Defines q fun x => v.value? x = some (e.eval x) := by
  cases v with
  | const c =>
    obtain ⟨rfl, rfl⟩ := pure_eq_ok.1 h
    exact Extends.refl hp fun x _ => by rw [Affine.eval_const]; rfl
  | literal l =>
    obtain ⟨rfl, rfl⟩ := pure_eq_ok.1 h
    exact Extends.refl hp fun x _ => rfl
  | column i =>
    obtain ⟨rfl, rfl⟩ := pure_eq_ok.1 h
    exact Extends.refl hp fun x _ => by rw [Affine.eval_ofColumn]; rfl
  | affine e =>
    obtain ⟨rfl, rfl⟩ := pure_eq_ok.1 h
    exact Extends.refl hp fun x _ => rfl
  | relation r =>
    simp only [affineOf, bind_eq_ok, pure_eq_ok] at h
    obtain ⟨l, _, h, rfl, rfl⟩ := h
    refine (reifies_of_reify hp h).defines.weaken fun x hx _ => ?_
    rw [(reifies_of_reify hp h).eval hx]
    rfl
  | sequence items => cases throw_eq_ok.1 h

theorem steady_literalOf (v : Lowered) : Steady (literalOf v) := by
  cases v with
  | const c => exact steady_constantLiteral _
  | literal l => exact Keeps.pure l
  | relation r => exact steady_reify r
  | sequence items => exact Keeps.throw _
  | column i => exact steady_booleanView _
  | affine e => exact steady_booleanView e

/-- The literal of a value is true exactly where the number of the value is not zero. -/
theorem reifies_of_literalOf (hp : p.WellFormed) (hv : v.Over p) (h : literalOf v p = .ok l q) :
    p.Reifies q l fun x => ∃ n, v.value? x = some n ∧ n ≠ 0 := by
  cases hv with
  | const c => exact (reifies_of_constantLiteral hp h).congr fun x _ => by simp [Lowered.value?]
  | literal hl =>
    obtain ⟨rfl, rfl⟩ := pure_eq_ok.1 h
    exact ⟨hl, Extends.refl hp fun x hx => by simp [Lowered.value?, holds_iff_ne_zero hl hx]⟩
  | relation _ => exact (reifies_of_reify hp h).congr fun x _ => by simp [Lowered.value?]
  | column _ => exact (reifies_of_booleanView hp h).congr fun x _ => by simp [Lowered.value?]
  | affine _ => exact (reifies_of_booleanView hp h).congr fun x _ => by simp [Lowered.value?]
  | sequence _ => cases throw_eq_ok.1 h

/-- A value that became a literal is a number and not a sequence. -/
theorem value?_isSome_of_literalOf (h : literalOf v p = .ok l q) (x : Assignment) :
    (v.value? x).isSome := by
  cases v with
  | sequence items => cases throw_eq_ok.1 h
  | _ => rfl

end Lowering

end Linearization
