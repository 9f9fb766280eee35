import Linearization.Proofs.Ilp.Attempts
import Linearization.Proofs.Ilp.Division

/-!
# Non-linear arithmetic excludes nothing, wherever it fails

The new columns of an operation can always take the values that the operation would give them, and
these satisfy whatever rows were made before the failure (`attempts_product`, `attempts_divide`,
`attempts_power`, …).
-/

namespace Linearization.Lowering

open Ilp Literal

variable {p q : Ilp} {a b c e : Affine} {l : Literal} {x y : Assignment} {i : Nat}

/-! ## Guarded equations for one column -/

theorem attempts_both {r s : Relation} (hp : p.WellFormed) (hl : p.IsTruth l)
    (hs : s.Below p.columns.size) :
    Attempts (do
      enforce r [l]
      enforce s [l.negate]) p
      (fun x => (l.Holds x → r.Holds x) ∧ (¬ l.Holds x → s.Holds x))
      fun _ x => (l.Holds x → r.Holds x) ∧ (¬ l.Holds x → s.Holds x) := by
  have hneg : p.IsTruth l.negate := isTruth_negate.2 hl
  have hlocal : Local p.columns.size fun x => AllHold [l.negate] x → s.Holds x :=
    (local_allHold (List.forall_mem_singleton.2 hneg.column_lt)).imp (Relation.local_holds hs)
  refine Attempts.congr (.bind (attempts_enforce hp (List.forall_mem_singleton.2 hl))
    (fun _ q _ hgrows hq => attempts_enforce hq (List.forall_mem_singleton.2 (hneg.mono hgrows)))
    hlocal) fun x hx => ?_
  simp only [allHold_cons, allHold_nil, and_true, hl.holds_negate hx]

/-! ## Absolute value -/

theorem attempts_absolute (hp : p.WellFormed) :
    Attempts (absolute e) p (fun _ => True) fun c x => c.eval x = (e.eval x).natAbs where
  succeeds _ _ h := (computes_of_absolute hp h).defines
  spares x hx _ := by
    refine .bounds hx fun lower upper hb => ?_
    have hmem := mem_of_bounds hb hx
    have hbelow := below_of_bounds hb
    dsimp only
    split
    · exact .pure _ hx
    split
    · exact .of_same (by cases e.negated <;> rfl) hx
    · refine .check hx fun w hw => ?_
      rw [checkedAbs_eq_ok hw]
      refine .auxiliaryInt (v := (e.eval x).natAbs) hp hx (by omega) (by omega)
        fun i q y hg₁ hq hi _ hxy hy hyi => ?_
      refine .auxiliaryBool hq hy (0 ≤ e.eval x) fun l r z hg₂ hr hl hyz hz hlz => ?_
      have hxz := hxy.trans (hyz.mono hg₁.size_le)
      have hzi : z i = (e.eval z).natAbs := by rw [← hyz i hi, hyi, hbelow.eval_congr hxz]
      rw [hbelow.eval_congr hxz] at hlz
      refine .after (attempts_enforce hr (List.forall_mem_singleton.2 hl)) hz (fun hall => ?_)
        fun _ s v _ hg₃ hs hzv hv _ => .check hv fun n hn => ?_
      · show (Affine.ofColumn i).eval z = e.eval z
        have := hlz.1 (allHold_cons.1 hall).1
        rw [Affine.eval_ofColumn, hzi]
        omega
      · have hls := hl.mono hg₃
        refine .after (attempts_enforce hs (List.forall_mem_singleton.2 (isTruth_negate.2 hls))) hv
          (fun hall => ?_) fun _ _ _ _ _ _ _ hu _ => .pure _ hu
        have hneg := (hls.holds_negate hv).1 (allHold_cons.1 hall).1
        rw [← holds_congr hl.column_lt hzv, hlz] at hneg
        show (Affine.ofColumn i).eval v = n.eval v
        rw [Affine.eval_ofColumn, Affine.eval_of_negated hn,
          ← hzv i (Nat.lt_of_lt_of_le hi hg₂.size_le), hzi,
          ← (hbelow.mono (hg₁.trans hg₂).size_le).eval_congr hzv]
        omega

/-! ## Products -/

theorem attempts_literalTimes (hp : p.WellFormed) (hl : p.IsTruth l) :
    Attempts (literalTimes l e) p (fun _ => True)
      fun c x => c.eval x = l.toAffine.eval x * e.eval x where
  succeeds _ _ h := (computes_of_literalTimes hp hl h).defines
  spares x hx _ := by
    refine .bounds hx fun lower upper hb => ?_
    have hmem := mem_of_bounds hb hx
    refine .auxiliaryInt (v := l.toAffine.eval x * e.eval x) hp hx ?_ ?_
      fun i q y hg hq hi _ hxy hy hyi => ?_
    · rcases hl.eval hx with h | h <;> rw [h] <;> omega
    · rcases hl.eval hx with h | h <;> rw [h] <;> omega
    · rw [Literal.eval_congr hl.column_lt hxy, (below_of_bounds hb).eval_congr hxy] at hyi
      have hlq : q.IsTruth l := hl.mono hg
      rw [← bind_assoc]
      refine .after (attempts_both hq hlq ⟨Affine.below_ofColumn.2 hi, Affine.below_const _ _⟩) hy
        ⟨fun hone => ?_, fun hzero => ?_⟩ fun _ _ _ _ _ _ _ hz _ => .pure _ hz
      · show (Affine.ofColumn i).eval y = e.eval y
        rw [Affine.eval_ofColumn, hyi, show l.toAffine.eval y = 1 from hone, Int.one_mul]
      · show (Affine.ofColumn i).eval y = (Affine.const 0).eval y
        rw [Affine.eval_ofColumn, Affine.eval_const, hyi, (hlq.eval hy).resolve_right hzero,
          Int.zero_mul]

/-- Under the literal of each value, the column is the multiple of the form by that value. -/
theorem attempts_multiplyEach {encoding : Encoding} (hp : p.WellFormed) (hi : i < p.columns.size)
    (he : e.Below p.columns.size) (ht : ∀ entry ∈ encoding, p.IsTruth entry.2) :
    Attempts (multiplyEach i e encoding) p
      (fun x => ∀ entry ∈ encoding, entry.2.Holds x → x i = entry.1 * e.eval x)
      fun _ x => ∀ entry ∈ encoding, entry.2.Holds x → x i = entry.1 * e.eval x where
  succeeds _ _ h := imposes_of_multiplyEach hp hi he ht h
  spares x hx hn := by
    induction encoding generalizing p x with
    | nil => exact .pure _ hx
    | cons entry rest ih =>
      obtain ⟨value, l⟩ := entry
      rw [List.forall_mem_cons] at ht hn
      refine .check hx fun c hc => ?_
      refine .after (attempts_enforce hp (List.forall_mem_singleton.2 ht.1)) hx (fun hall => ?_)
        fun _ q y _ hgrows hq hxy hy _ => ?_
      · show (Affine.ofColumn i).eval x = c.eval x
        rw [Affine.eval_ofColumn, Affine.eval_of_scale hc]
        exact hn.1 (allHold_cons.1 hall).1
      · refine ih hq (Nat.lt_of_lt_of_le hi hgrows.size_le) (he.mono hgrows.size_le)
          (fun entry hmem => (ht.2 entry hmem).mono hgrows) y hy fun entry hmem hl => ?_
        rw [← hxy i hi, ← he.eval_congr hxy]
        exact hn.2 entry hmem ((holds_congr (ht.2 entry hmem).column_lt hxy).2 hl)

theorem spares_encoded {few many : Affine} {lower upper : Int} {purpose : String}
    (hp : p.WellFormed) (hfew : few.Below p.columns.size) (hmany : many.Below p.columns.size)
    (hx : p.Solves x)
    (hrange : lower ≤ few.eval x * many.eval x ∧ few.eval x * many.eval x ≤ upper) :
    Spares (do
      let encoding ← encode few
      let result ← auxiliaryInt purpose lower upper
      multiplyEach result many encoding
      return Affine.ofColumn result) p x := by
  refine .after (attempts_encode hp) hx trivial
    fun encoding q y hrun hg₁ hq hxy hy hselects => ?_
  rw [hfew.eval_congr hxy, hmany.eval_congr hxy] at hrange
  refine .auxiliaryInt hq hy hrange.1 hrange.2 fun i r z hg₂ hr hi _ hyz hz hzi => ?_
  have htruth := (encodes_of_encode hp hrun).1.truth
  refine .after (attempts_multiplyEach hr hi (hmany.mono (hg₁.trans hg₂).size_le)
    fun entry hmem => (htruth entry hmem).mono hg₂) hz (fun entry hmem hl => ?_)
    fun _ _ _ _ _ _ _ hw _ => .pure _ hw
  rw [hzi, ← (hmany.mono hg₁.size_le).eval_congr hyz,
    (hselects.2 entry hmem).1 ((holds_congr (htruth entry hmem).column_lt hyz).2 hl)]

theorem attempts_encodedProduct (hp : p.WellFormed) :
    Attempts (encodedProduct a b) p (fun _ => True) fun c x => c.eval x = a.eval x * b.eval x where
  succeeds _ _ h := (computes_of_encodedProduct hp h).defines
  spares x hx _ := by
    refine .bounds hx fun aLower aUpper ha => .bounds hx fun bLower bUpper hb => ?_
    refine .check hx fun lower hlower => .check hx fun upper hupper => ?_
    have hrange : lower ≤ a.eval x * b.eval x ∧ a.eval x * b.eval x ≤ upper := by
      rw [checked_eq_ok hlower, checked_eq_ok hupper]
      exact mul_mem_corners (mem_of_bounds ha hx) (mem_of_bounds hb hx)
    dsimp only
    split
    · exact spares_encoded hp (below_of_bounds ha) (below_of_bounds hb) hx hrange
    · rw [Int.mul_comm] at hrange
      exact spares_encoded hp (below_of_bounds hb) (below_of_bounds ha) hx hrange

theorem attempts_product (hp : p.WellFormed) (ha : a.Below p.columns.size)
    (hb : b.Below p.columns.size) :
    Attempts (product a b) p (fun _ => True) fun c x => c.eval x = a.eval x * b.eval x where
  succeeds _ _ h := (computes_of_product hp ha hb h).defines
  spares x hx _ := by
    have hscale {e : Affine} {k : Int} : Spares (liftM (e.scale k) : Lowering Affine) p x :=
      .of_same (by cases e.scale k <;> rfl) hx
    unfold product
    split
    · exact hscale
    · exact hscale
    · refine .get (.check hx fun view hview => ?_)
      cases view with
      | some l => exact (attempts_literalTimes hp (literalView_eq_some hview).1).spares x hx trivial
      | none =>
        refine .get (.check hx fun view hview => ?_)
        cases view with
        | some l =>
          exact (attempts_literalTimes hp (literalView_eq_some hview).1).spares x hx trivial
        | none => exact (attempts_encodedProduct hp).spares x hx trivial

/-! ## Powers -/

theorem spares_repeatedProduct {base acc : Affine} {count : Nat} (hp : p.WellFormed)
    (hbase : base.Below p.columns.size) (hacc : acc.Below p.columns.size) (hx : p.Solves x) :
    Spares (repeatedProduct base count acc) p x := by
  induction count generalizing p acc x with
  | zero => exact .pure _ hx
  | succ count ih =>
    refine .after (attempts_product hp hacc hbase) hx trivial
      fun c q y hrun hgrows hq _ hy _ => ?_
    exact ih hq (hbase.mono hgrows.size_le) (computes_of_product hp hacc hbase hrun).below hy

theorem attempts_power {exponent : Int} (hp : p.WellFormed) (ha : a.Below p.columns.size) :
    Attempts (power a exponent) p (fun _ => True)
      fun c x => c.eval x = a.eval x ^ exponent.toNat where
  succeeds _ _ h := (computes_of_power hp ha h).2.defines
  spares x hx _ := by
    unfold power
    split
    · exact .throw _ hx
    split
    · exact .check hx fun w _ => .pure _ hx
    · exact spares_repeatedProduct hp ha (Affine.below_const _ _) hx

/-! ## Division -/

theorem attempts_divisorCases (hp : p.WellFormed) :
    Attempts (divisorCases b) p (fun _ => True) fun _ _ => True where
  succeeds _ _ h := (areCases_of_divisorCases hp h).2
  spares x hx _ := by
    unfold divisorCases
    split
    · exact .pure _ hx
    · exact .after (attempts_encode hp) hx trivial fun _ _ _ _ _ _ _ hy _ => .pure _ hy

/-- For each divisor, the equation of the division and the bounds of its remainder. -/
theorem attempts_divideEach {quotient remainder : Nat} {cases : List (Int × List Literal)}
    (hp : p.WellFormed) (ha : a.Below p.columns.size) (hquotient : quotient < p.columns.size)
    (hremainder : remainder < p.columns.size)
    (ht : ∀ case ∈ cases, ∀ g ∈ case.2, p.IsTruth g) :
    Attempts (divideEach a quotient remainder cases) p
      (fun x => ∀ case ∈ cases, AllHold case.2 x → DividesBy a quotient remainder case.1 x)
      fun _ x => ∀ case ∈ cases, AllHold case.2 x → DividesBy a quotient remainder case.1 x where
  succeeds _ _ h := imposes_of_divideEach hp ha hquotient hremainder ht h
  spares x hx hn := by
    induction cases generalizing p x with
    | nil => exact .pure _ hx
    | cons case rest ih =>
      obtain ⟨divisor, guards⟩ := case
      rw [List.forall_mem_cons] at ht hn
      have hdivides {y : Assignment} (hxy : AgreeBelow p.columns.size x y)
          (hall : AllHold guards y) : DividesBy a quotient remainder divisor y :=
        (local_dividesBy ha hquotient hremainder x y hxy).1
          (hn.1 ((allHold_congr ht.1 hxy).2 hall))
      -- three relations under the guards of the divisor, each on an extension of the last one
      refine .check hx fun rebuilt hrebuilt => ?_
      refine .after (attempts_enforce hp ht.1) hx (fun hall => ?_)
        fun _ q₁ y₁ _ hg₁ hq₁ hxy₁ hy₁ _ => ?_
      · show a.eval x = rebuilt.eval x
        rw [Affine.eval_of_plus hrebuilt, Affine.eval_single, Affine.eval_ofColumn]
        exact (hdivides (.refl _ x) hall).1
      refine .check hy₁ fun w hw => .check hy₁ fun bound hbound => ?_
      have hvalue : bound = (divisor.natAbs : Int) - 1 := by
        rw [plain_eq_ok hbound, checkedAbs_eq_ok hw]
      refine .after (attempts_enforce hq₁ fun g hmem => (ht.1 g hmem).mono hg₁) hy₁
        (fun hall => ?_) fun _ q₂ y₂ _ hg₂ hq₂ hxy₂ hy₂ _ => ?_
      · show (Affine.ofColumn remainder).eval y₁ ≤ (Affine.const bound).eval y₁
        rw [Affine.eval_ofColumn, Affine.eval_const, hvalue]
        exact (hdivides hxy₁ hall).2.1
      have hg := hg₁.trans hg₂
      have hxy := hxy₁.trans (hxy₂.mono hg₁.size_le)
      refine .check hy₂ fun least hleast => ?_
      refine .after (attempts_enforce hq₂ fun g hmem => (ht.1 g hmem).mono hg) hy₂
        (fun hall => ?_) fun _ q₃ y₃ _ hg₃ hq₃ hxy₃ hy₃ _ => ?_
      · show (Affine.ofColumn remainder).eval y₂ ≥ (Affine.const least).eval y₂
        rw [Affine.eval_ofColumn, Affine.eval_const, plain_eq_ok hleast, hvalue]
        exact (hdivides hxy hall).2.2
      have hgrows := hg.trans hg₃
      have hxy' := hxy.trans (hxy₃.mono hg.size_le)
      refine ih hq₃ (ha.mono hgrows.size_le) (Nat.lt_of_lt_of_le hquotient hgrows.size_le)
        (Nat.lt_of_lt_of_le hremainder hgrows.size_le)
        (fun case hcase g hmem => (ht.2 case hcase g hmem).mono hgrows) y₃ hy₃
        fun case hcase hall => ?_
      apply (local_dividesBy ha hquotient hremainder x y₃ hxy').1
      exact hn.2 case hcase ((allHold_congr (ht.2 case hcase) hxy').2 hall)

/-- Where the bounds leave the sign of the dividend open, the remainder has it too. -/
theorem attempts_alignSign {lower upper : Int} {remainder : Nat} (hp : p.WellFormed)
    (ha : a.Below p.columns.size) (hremainder : remainder < p.columns.size) :
    Attempts (alignSign a lower upper remainder) p
      (fun x => lower < 0 ∧ 0 < upper →
        (0 ≤ a.eval x → 0 ≤ x remainder) ∧ (a.eval x < 0 → x remainder ≤ 0))
      fun _ x => lower < 0 ∧ 0 < upper →
        (0 ≤ a.eval x → 0 ≤ x remainder) ∧ (a.eval x < 0 → x remainder ≤ 0) where
  succeeds _ _ h := imposes_of_alignSign hp ha hremainder h
  spares x hx hn := by
    unfold alignSign
    split
    · rename_i hopen
      refine .after (attempts_reify hp) hx trivial fun l q y hrun hgrows hq hxy hy hl => ?_
      have hr : remainder < q.columns.size := Nat.lt_of_lt_of_le hremainder hgrows.size_le
      have hsign := hn hopen
      rw [ha.eval_congr hxy, hxy _ hremainder] at hsign
      have hiff : l.Holds y ↔ 0 ≤ a.eval y := hl.trans (by
        show a.eval y ≥ (Affine.const 0).eval y ↔ _
        rw [Affine.eval_const])
      refine (attempts_both hq (reifies_of_reify hp hrun).truth
        ⟨Affine.below_ofColumn.2 hr, Affine.below_const _ _⟩).spares y hy
          ⟨fun hl => ?_, fun hl => ?_⟩
      · show (Affine.ofColumn remainder).eval y ≥ (Affine.const 0).eval y
        rw [Affine.eval_ofColumn, Affine.eval_const]
        exact hsign.1 (hiff.1 hl)
      · show (Affine.ofColumn remainder).eval y ≤ (Affine.const 0).eval y
        rw [Affine.eval_ofColumn, Affine.eval_const]
        exact hsign.2 (Int.not_le.1 fun h => hl (hiff.2 h))
    · exact .pure _ hx

/-- The rows of a division hold for the quotient and the remainder. -/
theorem spares_divisionRows {cases : List (Int × List Literal)} {i j : Nat}
    {aLower aUpper bound : Int} (hp : p.WellFormed) (hcases : AreCases p b cases)
    (ha : a.Below p.columns.size) (hi : i < p.columns.size) (hj : j < p.columns.size)
    (hmem : ∀ x, p.Solves x → aLower ≤ a.eval x ∧ a.eval x ≤ aUpper)
    (hzero : ∀ x, p.Solves x → b.eval x ≠ 0)
    (hremainder : ∀ x, p.Solves x → (if aLower < 0 then -bound else 0) ≤ x j ∧
      x j ≤ if aUpper > 0 then bound else 0)
    (hx : p.Solves x)
    (hresult : x i = (a.eval x).tdiv (b.eval x) ∧ x j = (a.eval x).tmod (b.eval x)) :
    Spares (do
      alignSign a aLower aUpper j
      divideEach a i j cases
      return (Affine.ofColumn i, Affine.ofColumn j)) p x := by
  obtain ⟨hsign, hdivides⟩ := (division_iff hcases hmem hzero hremainder hx).2 hresult
  refine .after (attempts_alignSign hp ha hj) hx hsign fun _ q y _ hg hq hxy hy _ => ?_
  refine .after (attempts_divideEach hq (ha.mono hg.size_le) (Nat.lt_of_lt_of_le hi hg.size_le)
    (Nat.lt_of_lt_of_le hj hg.size_le) (hcases.mono hg).truth) hy (fun case hcase hall => ?_)
    fun _ _ _ _ _ _ _ hz _ => .pure _ hz
  apply (local_dividesBy ha hi hj x y hxy).1
  exact hdivides case hcase ((allHold_congr (hcases.truth case hcase) hxy).2 hall)

/-- The columns may take the values of the quotient and of the remainder, for which all the rows
hold. -/
theorem spares_variableDivision (hp : p.WellFormed) (hx : p.Solves x) :
    Spares (variableDivision a b) p x := by
  refine .bounds hx fun bLower bUpper hb => ?_
  dsimp only
  split
  · exact .throw _ hx
  split
  · exact .throw _ hx
  rename_i hopen
  refine .after (attempts_divisorCases hp) hx trivial fun cases q₁ y₁ hrun hg₁ hq₁ hxy₁ hy₁ _ => ?_
  refine .check hy₁ fun atLower hatLower => .check hy₁ fun atUpper hatUpper => ?_
  refine .bounds hy₁ fun aLower aUpper ha => ?_
  refine .check hy₁ fun left hleft => .check hy₁ fun right hright => ?_
  rw [checkedAbs_eq_ok hatLower, checkedAbs_eq_ok hatUpper, checkedAbs_eq_ok hleft,
    checkedAbs_eq_ok hright]
  dsimp only
  split
  · exact .throw _ hy₁
  refine .check hy₁ fun qb hqb => .check hy₁ fun rb hrb => .check hy₁ fun lq hlq => ?_
  rw [plain_eq_ok hlq, plain_eq_ok hqb, plain_eq_ok hrb]
  have hb₁ := hg₁.bounds hb
  have hmemA := mem_of_bounds ha hy₁
  have hmemB := mem_of_bounds hb₁ hy₁
  have hzero : b.eval y₁ ≠ 0 := by omega
  obtain ⟨hql, hqu⟩ := tdiv_mem hmemA hmemB hopen rfl
  refine .auxiliaryInt hq₁ hy₁ hql hqu fun i q₂ y₂ hg₂ hq₂ hi _ hxy₂ hy₂ hyi => ?_
  refine .check hy₂ fun lr hlr => ?_
  rw [plain_eq_ok hlr]
  obtain ⟨hrl, hru⟩ := tmod_mem hmemA hmemB hzero rfl
  refine .auxiliaryInt hq₂ hy₂ hrl hru fun j q₃ y₃ hg₃ hq₃ hj hrange hxy₃ hy₃ hyj => ?_
  have hg := hg₂.trans hg₃
  have hxy := hxy₂.trans (hxy₃.mono hg₂.size_le)
  refine spares_divisionRows hq₃ ((areCases_of_divisorCases hp hrun).1.mono hg)
    ((below_of_bounds ha).mono hg.size_le) (Nat.lt_of_lt_of_le hi hg₃.size_le) hj
    (fun z hz => mem_of_bounds ha (hg.solves hz)) (fun z hz => ?_) hrange hy₃ ?_
  · have := mem_of_bounds hb₁ (hg.solves hz)
    omega
  · rw [← (below_of_bounds ha).eval_congr hxy, ← (below_of_bounds hb₁).eval_congr hxy]
    exact ⟨(hxy₃ i hi).symm.trans hyi, hyj⟩

theorem attempts_divide (hp : p.WellFormed) :
    Attempts (divide a b) p (fun _ => True) fun pair x => b.eval x ≠ 0 ∧
      pair.1.eval x = (a.eval x).tdiv (b.eval x) ∧
        pair.2.eval x = (a.eval x).tmod (b.eval x) where
  succeeds _ _ h := (divides_of_divide hp h).defines
  spares x hx _ := by
    unfold divide
    split
    · split
      · exact .throw _ hx
      · exact .check hx fun _ _ => .pure _ hx
    · exact spares_variableDivision hp hx

theorem spares_quotient (hp : p.WellFormed) (hx : p.Solves x) : Spares (quotient a b) p x :=
  .after (attempts_divide hp) hx trivial fun _ _ _ _ _ _ _ hy _ => .pure _ hy

theorem spares_remainder (hp : p.WellFormed) (hx : p.Solves x) : Spares (remainder a b) p x :=
  .after (attempts_divide hp) hx trivial fun _ _ _ _ _ _ _ hy _ => .pure _ hy

end Linearization.Lowering
