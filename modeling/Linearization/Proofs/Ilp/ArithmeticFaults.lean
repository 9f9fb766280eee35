import Linearization.Proofs.Ilp.Choice
import Linearization.Proofs.Ilp.Division
import Linearization.Proofs.Ilp.Faults

/-!
# Encodings, choices and arithmetic without faults

The lowerings that are made from guarded relations: encodings, distinct values, extrema, selected
items, the non-linear arithmetic and the coercions of lowered values. Division is the one that looks
at bounds to keep its own operations inside the range of a word: an interval of bounds is never
empty (`le_of_bounds`), not even where that of a column is, so a divisor whose bounds exclude zero
is not zero.
-/

namespace Linearization.Lowering

open Ilp Literal

variable {α : Type} {p q : Ilp} {a b e target : Affine} {l : Literal} {ls guards : List Literal}
  {forms items : List Affine}

/-! ## Encodings -/

theorem faultless_encodeFrom {count : Nat} {value : Int} {total channel : Affine}
    (hp : p.WellFormed) : Faultless (encodeFrom count value total channel) p := by
  induction count generalizing p value total channel with
  | zero => exact .pure _ p
  | succ count ih =>
    refine .auxiliaryBool hp fun l q _ _ hq => ?_
    refine .check (.plus _ _) fun _ _ => .check (.scale _ _) fun _ _ => ?_
    refine .check (.minus _ _) fun _ _ => ?_
    exact (ih hq).bind hq (steady_encodeFrom _ _ _ _) fun _ _ _ _ _ => .pure _ _

/-- The sums that the rows of an encoding are made from only use columns of the program. -/
theorem below_of_encodeFrom {count : Nat} {value : Int}
    {total channel total' channel' : Affine} {encoding : Encoding} (hp : p.WellFormed)
    (htotal : total.Below p.columns.size) (hchannel : channel.Below p.columns.size)
    (h : encodeFrom count value total channel p = .ok (encoding, total', channel') q) :
    total'.Below q.columns.size ∧ channel'.Below q.columns.size := by
  induction count generalizing p value total channel encoding with
  | zero =>
    obtain ⟨h, rfl⟩ := pure_eq_ok.1 h
    cases h
    exact ⟨htotal, hchannel⟩
  | succ count ih =>
    unfold encodeFrom at h
    simp only [bind_eq_ok, liftM_eq_ok, pure_eq_ok] at h
    obtain ⟨l, r, hl, t, _, ⟨ht, rfl⟩, s, _, ⟨hs, rfl⟩, c, _, ⟨hc, rfl⟩, ⟨rest, t', c'⟩, _, hcont,
      heq, rfl⟩ := h
    cases heq
    have hle : p.columns.size ≤ r.columns.size :=
      ((steady_auxiliaryBool _).grows hp hl).size_le
    have hlit : l.toAffine.Below r.columns.size :=
      below_toAffine.2 (isTruth_of_auxiliaryBool hl).column_lt
    exact ih ((steady_auxiliaryBool _).wellFormed hp hl) (.of_plus ht (htotal.mono hle) hlit)
      (.of_minus hc (hchannel.mono hle) (.of_scale hs hlit)) hcont

theorem faultless_encode (hp : p.WellFormed) (he : e.Below p.columns.size) :
    Faultless (encode e) p := by
  refine .bounds he fun lower upper _ => ?_
  dsimp only
  split
  · exact (faultless_trueLiteral p).bind hp steady_trueLiteral fun _ _ _ _ _ => .pure _ _
  · refine .get ?_
    split
    · exact .pure _ p
    split
    · exact .throw (by nofun) p
    rename_i hlimit
    split
    · rename_i hcapacity
      -- the one fault that no invariant excludes
      refine FailsOnly.throw (fun f hf => ?_) p
      cases hf
      exact ⟨_, rfl, hcapacity, Nat.le_of_not_gt hlimit⟩
    · refine (faultless_encodeFrom hp).bind hp (steady_encodeFrom _ _ _ _)
        fun ⟨encoding, total, channel⟩ q h hgrows hq => ?_
      obtain ⟨htotal, hchannel⟩ := below_of_encodeFrom hp (Affine.below_const _ _) he h
      refine .check (.minus _ _) fun d hd => ?_
      have hone : Faultless (addZero d) q :=
        faultless_addUnlessImplied (.of_minus hd htotal (Affine.below_const _ _))
      refine hone.bind hq (steady_addUnlessImplied _ _ d) fun _ s _ hgrows' hs => ?_
      refine (faultless_addUnlessImplied (hchannel.mono hgrows'.size_le)).bind hs
        (steady_addUnlessImplied _ _ channel) fun _ s' _ _ _ => ?_
      exact FailsOnly.of_ok rfl

theorem column_lt_of_encode {encoding : Encoding} (hp : p.WellFormed)
    (h : encode e p = .ok encoding q) : ∀ entry ∈ encoding, entry.2.column < q.columns.size :=
  fun entry hmem => ((encodes_of_encode hp h).1.truth entry hmem).column_lt

/-! ## Distinct values, extrema and selected items -/

theorem faultless_enforceDistinct (hp : p.WellFormed)
    (hforms : ∀ form ∈ forms, form.Below p.columns.size) (hg : AllBelow p.columns.size guards) :
    Faultless (enforceDistinct guards forms) p := by
  induction forms generalizing p with
  | nil => exact .pure _ p
  | cons e es ih =>
    rw [List.forall_mem_cons] at hforms
    have hdiffers : Faultless (enforceDiffers e es guards) p :=
      .forM hp (fun _ _ => steady_enforce _ _) fun other hother q hgrows hq =>
        faultless_enforce hq ⟨hforms.1.mono hgrows.size_le,
          (hforms.2 other hother).mono hgrows.size_le⟩ (hg.mono hgrows.size_le)
    refine hdiffers.bind hp (.forM (fun _ => steady_enforce _ _) es) fun _ q _ hgrows hq => ?_
    exact ih hq (fun form hmem => (hforms.2 form hmem).mono hgrows.size_le)
      (hg.mono hgrows.size_le)

theorem faultless_addWitnesses {op : Comparison} (hp : p.WellFormed)
    (htarget : target.Below p.columns.size)
    (hforms : ∀ form ∈ forms, form.Below p.columns.size) :
    Faultless (addWitnesses target op forms) p := by
  induction forms generalizing p with
  | nil => exact .pure _ p
  | cons e es ih =>
    rw [List.forall_mem_cons] at hforms
    refine .enforce hp ⟨htarget, hforms.1⟩ (.nil _) fun q hg₁ hq => ?_
    refine .auxiliaryBool hq fun witness s hwitness hg₂ hs => ?_
    have hle : p.columns.size ≤ s.columns.size := (hg₁.trans hg₂).size_le
    refine .enforce hs ⟨htarget.mono hle, hforms.1.mono hle⟩ (.singleton hwitness)
      fun u hg₃ hu => ?_
    have hle : p.columns.size ≤ u.columns.size := Nat.le_trans hle hg₃.size_le
    exact (ih hu (htarget.mono hle) fun form hmem => (hforms.2 form hmem).mono hle).bind hu
      (steady_addWitnesses _ _ _) fun _ _ _ _ _ => .pure _ _

theorem allBelow_of_addWitnesses {op : Comparison} (hp : p.WellFormed)
    (h : addWitnesses target op forms p = .ok ls q) : AllBelow q.columns.size ls := by
  induction forms generalizing p ls with
  | nil =>
    obtain ⟨rfl, rfl⟩ := pure_eq_ok.1 h
    exact .nil _
  | cons e es ih =>
    simp only [addWitnesses, bind_eq_ok, pure_eq_ok] at h
    obtain ⟨_, p₁, h₁, witness, p₂, h₂, _, p₃, h₃, rest, _, h₄, rfl, rfl⟩ := h
    have hp₁ : p₁.WellFormed := (steady_enforce _ _).wellFormed hp h₁
    have hp₂ : p₂.WellFormed := (steady_auxiliaryBool _).wellFormed hp₁ h₂
    have hp₃ : p₃.WellFormed := (steady_enforce _ _).wellFormed hp₂ h₃
    have hgrows := ((steady_enforce _ _).grows hp₂ h₃).trans
      ((steady_addWitnesses _ _ _).grows hp₃ h₄)
    exact .cons (Nat.lt_of_lt_of_le (isTruth_of_auxiliaryBool h₂).column_lt hgrows.size_le)
      (ih hp₃ h₄)

theorem faultless_addExtremum {op : Comparison} (hp : p.WellFormed)
    (htarget : target.Below p.columns.size)
    (hforms : ∀ form ∈ forms, form.Below p.columns.size) :
    Faultless (addExtremum target forms op) p :=
  (faultless_addWitnesses hp htarget hforms).bind hp (steady_addWitnesses _ _ _)
    fun _ _ h _ _ => faultless_addClause (allBelow_of_addWitnesses hp h) (.nil _)

theorem faultless_selectEach {encoding : Encoding} (hp : p.WellFormed)
    (htarget : target.Below p.columns.size) (hitems : ∀ item ∈ items, item.Below p.columns.size)
    (hg : AllBelow p.columns.size guards)
    (hencoding : ∀ entry ∈ encoding, entry.2.column < p.columns.size) :
    Faultless (selectEach items target guards encoding) p := by
  induction encoding generalizing p with
  | nil => exact .pure _ p
  | cons entry rest ih =>
    obtain ⟨position, selected⟩ := entry
    rw [List.forall_mem_cons] at hencoding
    have hrest : ∀ q, p.Grows q → q.WellFormed →
        Faultless (selectEach items target guards rest) q := fun q hgrows hq =>
      ih hq (htarget.mono hgrows.size_le) (fun item hmem => (hitems item hmem).mono hgrows.size_le)
        (hg.mono hgrows.size_le)
        fun entry hmem => Nat.lt_of_lt_of_le (hencoding.2 entry hmem) hgrows.size_le
    rw [selectEach]
    cases hitem : itemAt? items position with
    | some item =>
      exact .enforce hp ⟨htarget, hitems item (mem_of_itemAt? hitem)⟩
        (hg.append (.singleton hencoding.1)) hrest
    | none =>
      exact (faultless_addClause (.singleton_negate hencoding.1) hg).bind hp (steady_addClause _ _)
        fun _ q _ hgrows hq => hrest q hgrows hq

theorem faultless_enforceElement {index : Affine} (hp : p.WellFormed)
    (hindex : index.Below p.columns.size) (htarget : target.Below p.columns.size)
    (hitems : ∀ item ∈ items, item.Below p.columns.size) (hg : AllBelow p.columns.size guards) :
    Faultless (enforceElement index items target guards) p :=
  (faultless_encode hp hindex).bind hp (steady_encode index) fun _ _ h hgrows hq =>
    faultless_selectEach hq (htarget.mono hgrows.size_le)
      (fun item hmem => (hitems item hmem).mono hgrows.size_le) (hg.mono hgrows.size_le)
      (column_lt_of_encode hp h)

/-! ## Arithmetic -/

theorem faultless_absolute (hp : p.WellFormed) (he : e.Below p.columns.size) :
    Faultless (absolute e) p := by
  refine .bounds he fun lower upper _ => ?_
  dsimp only
  split
  · exact .pure _ p
  split
  · exact .liftM (.scale e _)
  · refine .check (.checkedAbs lower) fun w _ => ?_
    refine .auxiliaryInt hp fun i q hi hg₁ hq => ?_
    refine .auxiliaryBool hq fun l s hl hg₂ hs => ?_
    have hes : e.Below s.columns.size := he.mono (hg₁.trans hg₂).size_le
    have his : i < s.columns.size := Nat.lt_of_lt_of_le hi hg₂.size_le
    refine .enforce hs ⟨Affine.below_ofColumn.2 his, hes⟩ (.singleton hl) fun u hg₃ hu => ?_
    have hle : s.columns.size ≤ u.columns.size := hg₃.size_le
    refine .check (.scale e _) fun n hn => ?_
    exact .enforce hu ⟨Affine.below_ofColumn.2 (Nat.lt_of_lt_of_le his hle),
      .of_negated hn (hes.mono hle)⟩ (.singleton_negate (Nat.lt_of_lt_of_le hl hle))
      fun _ _ _ => .pure _ _

theorem faultless_literalTimes (hp : p.WellFormed) (hl : l.column < p.columns.size)
    (he : e.Below p.columns.size) : Faultless (literalTimes l e) p := by
  refine .bounds he fun lower upper _ => .auxiliaryInt hp fun i q hi hgrows hq => ?_
  have hle : p.columns.size ≤ q.columns.size := hgrows.size_le
  exact .enforceBoth hq (Nat.lt_of_lt_of_le hl hle) ⟨Affine.below_ofColumn.2 hi, he.mono hle⟩
    ⟨Affine.below_ofColumn.2 hi, Affine.below_const _ _⟩ fun _ _ _ => .pure _ _

theorem faultless_multiplyEach {i : Nat} {encoding : Encoding} (hp : p.WellFormed)
    (hi : i < p.columns.size) (he : e.Below p.columns.size)
    (hencoding : ∀ entry ∈ encoding, entry.2.column < p.columns.size) :
    Faultless (multiplyEach i e encoding) p := by
  induction encoding generalizing p with
  | nil => exact .pure _ p
  | cons entry rest ih =>
    obtain ⟨value, l⟩ := entry
    rw [List.forall_mem_cons] at hencoding
    refine .check (.scale e value) fun d hd => ?_
    refine .enforce hp ⟨Affine.below_ofColumn.2 hi, .of_scale hd he⟩ (.singleton hencoding.1)
      fun q hgrows hq => ?_
    exact ih hq (Nat.lt_of_lt_of_le hi hgrows.size_le) (he.mono hgrows.size_le)
      fun entry hmem => Nat.lt_of_lt_of_le (hencoding.2 entry hmem) hgrows.size_le

theorem faultless_encodedProduct (hp : p.WellFormed) (ha : a.Below p.columns.size)
    (hb : b.Below p.columns.size) : Faultless (encodedProduct a b) p := by
  have hencoded : ∀ {few many : Affine} {lower upper : Int}, few.Below p.columns.size →
      many.Below p.columns.size → Faultless (do
        let encoding ← encode few
        let result ← auxiliaryInt "mul" lower upper
        multiplyEach result many encoding
        return Affine.ofColumn result) p := fun hfew hmany => by
    refine (faultless_encode hp hfew).bind hp (steady_encode _) fun encoding q h hg₁ hq => ?_
    refine .auxiliaryInt hq fun i s hi hg₂ hs => ?_
    have heach : Faultless (multiplyEach i _ encoding) s :=
      faultless_multiplyEach hs hi (hmany.mono (hg₁.trans hg₂).size_le) fun entry hmem =>
        Nat.lt_of_lt_of_le (column_lt_of_encode hp h entry hmem) hg₂.size_le
    exact heach.bind hs (steady_multiplyEach _ _ _) fun _ _ _ _ _ => .pure _ _
  refine .bounds ha fun aLower aUpper _ => .bounds hb fun bLower bUpper _ => ?_
  refine .check (.checked _) fun lower _ => .check (.checked _) fun upper _ => ?_
  dsimp only
  split
  · exact hencoded ha hb
  · exact hencoded hb ha

theorem faultless_product (hp : p.WellFormed) (ha : a.Below p.columns.size)
    (hb : b.Below p.columns.size) : Faultless (product a b) p := by
  unfold product
  split
  · exact .liftM (.scale _ _)
  · exact .liftM (.scale _ _)
  · refine .get (.check (.literalView ha) fun viewA hviewA => ?_)
    cases viewA with
    | some l => exact faultless_literalTimes hp (literalView_eq_some hviewA).1.column_lt hb
    | none =>
      refine .get (.check (.literalView hb) fun viewB hviewB => ?_)
      cases viewB with
      | some l => exact faultless_literalTimes hp (literalView_eq_some hviewB).1.column_lt ha
      | none => exact faultless_encodedProduct hp ha hb

/-! ## Division -/

theorem checkedAbs_mem {v w : Int} (h : Word.checkedAbs v = .ok w) :
    0 ≤ w ∧ w ≤ Word.greatest := by
  have hw : w = v.natAbs := checkedAbs_eq_ok h
  unfold Word.checkedAbs Word.checked at h
  split at h
  · rename_i hfits
    rw [hw]
    exact ⟨Int.natCast_nonneg _, hfits.2⟩
  · cases h

theorem faultless_divideEach {quotient remainder : Nat} {cases : List (Int × List Literal)}
    (hp : p.WellFormed) (ha : a.Below p.columns.size) (hquotient : quotient < p.columns.size)
    (hremainder : remainder < p.columns.size)
    (hcases : ∀ entry ∈ cases, AllBelow p.columns.size entry.2) :
    Faultless (divideEach a quotient remainder cases) p := by
  induction cases generalizing p with
  | nil => exact .pure _ p
  | cons entry rest ih =>
    obtain ⟨divisor, guards⟩ := entry
    rw [List.forall_mem_cons] at hcases
    refine .check (.plus _ _) fun rebuilt hrebuilt => ?_
    have hsum : rebuilt.Below p.columns.size := .of_plus hrebuilt
      (Affine.below_single hquotient divisor) (Affine.below_ofColumn.2 hremainder)
    refine .enforce hp ⟨ha, hsum⟩ hcases.1 fun q hg₁ hq => ?_
    refine .check (.checkedAbs divisor) fun w hw => ?_
    have hmem : 0 ≤ w ∧ w ≤ Word.greatest := checkedAbs_mem hw
    have hfits : Word.Fits (w - 1) ∧ Word.Fits (-(w - 1)) := by
      unfold Word.Fits Word.least
      unfold Word.greatest at *
      omega
    refine .check (.plain hfits.1) fun bound hbound => ?_
    obtain rfl := plain_eq_ok hbound
    have hrq : (Affine.ofColumn remainder).Below q.columns.size :=
      Affine.below_ofColumn.2 (Nat.lt_of_lt_of_le hremainder hg₁.size_le)
    refine .enforce hq ⟨hrq, Affine.below_const _ _⟩ (hcases.1.mono hg₁.size_le)
      fun s hg₂ hs => ?_
    refine .check (.plain hfits.2) fun least _ => ?_
    have hle : p.columns.size ≤ s.columns.size := (hg₁.trans hg₂).size_le
    refine .enforce hs ⟨hrq.mono hg₂.size_le, Affine.below_const _ _⟩ (hcases.1.mono hle)
      fun u hg₃ hu => ?_
    have hle : p.columns.size ≤ u.columns.size := Nat.le_trans hle hg₃.size_le
    exact ih hu (ha.mono hle) (Nat.lt_of_lt_of_le hquotient hle)
      (Nat.lt_of_lt_of_le hremainder hle) fun entry hmem => (hcases.2 entry hmem).mono hle

theorem faultless_alignSign {lower upper : Int} {remainder : Nat} (hp : p.WellFormed)
    (ha : a.Below p.columns.size) (hremainder : remainder < p.columns.size) :
    Faultless (alignSign a lower upper remainder) p := by
  unfold alignSign
  split
  · refine (faultless_reify hp ⟨ha, Affine.below_const _ _⟩).bind hp (steady_reify _)
      fun l q h hgrows hq => ?_
    have hl : l.column < q.columns.size := (reifies_of_reify hp h).truth.column_lt
    have hr : (Affine.ofColumn remainder).Below q.columns.size :=
      Affine.below_ofColumn.2 (Nat.lt_of_lt_of_le hremainder hgrows.size_le)
    refine .enforce hq ⟨hr, Affine.below_const _ _⟩ (.singleton hl) fun s hgrows' hs => ?_
    exact faultless_enforce hs ⟨hr.mono hgrows'.size_le, Affine.below_const _ _⟩
      (.singleton_negate (Nat.lt_of_lt_of_le hl hgrows'.size_le))
  · exact .pure _ p

theorem faultless_divisorCases (hp : p.WellFormed) (hb : b.Below p.columns.size) :
    Faultless (divisorCases b) p := by
  unfold divisorCases
  split
  · exact .pure _ p
  · exact (faultless_encode hp hb).bind hp (steady_encode b) fun _ _ _ _ _ => .pure _ _

theorem allBelow_of_divisorCases {cases : List (Int × List Literal)} (hp : p.WellFormed)
    (h : divisorCases b p = .ok cases q) : ∀ entry ∈ cases, AllBelow q.columns.size entry.2 :=
  fun entry hmem g hguard =>
    ((areCases_of_divisorCases hp h).1.truth entry hmem g hguard).column_lt

theorem faultless_divisionRows {cases : List (Int × List Literal)} {i j : Nat} {lower upper : Int}
    (hp : p.WellFormed) (ha : a.Below p.columns.size) (hi : i < p.columns.size)
    (hj : j < p.columns.size) (hcases : ∀ entry ∈ cases, AllBelow p.columns.size entry.2) :
    Faultless (do
      alignSign a lower upper j
      divideEach a i j cases
      return (Affine.ofColumn i, Affine.ofColumn j)) p := by
  refine (faultless_alignSign hp ha hj).bind hp (steady_alignSign _ _ _ _)
    fun _ q _ hgrows hq => ?_
  have hle : p.columns.size ≤ q.columns.size := hgrows.size_le
  have hrows : Faultless (divideEach a i j cases) q :=
    faultless_divideEach hq (ha.mono hle) (Nat.lt_of_lt_of_le hi hle) (Nat.lt_of_lt_of_le hj hle)
      fun entry hmem => (hcases entry hmem).mono hle
  exact hrows.bind hq (steady_divideEach _ _ _ _) fun _ _ _ _ _ => .pure _ _

/-- What the plain operations of a division are done with: the largest dividend and the smallest and
the largest divisor, without their signs. Whether the dividend may be negative does not matter. -/
theorem fits_of_division {largest atLower atUpper : Int} (hlargest : 0 ≤ largest)
    (hword : largest ≤ Word.greatest) (hlower : 0 < atLower) (hupper : 0 < atUpper)
    (hlower' : atLower ≤ Word.greatest) (hupper' : atUpper ≤ Word.greatest) (negative : Prop)
    [Decidable negative] :
    let quotientBound := largest.tdiv (min atLower atUpper)
    let remainderBound := min (max atLower atUpper - 1) largest
    Word.Fits quotientBound ∧ Word.Fits (-quotientBound) ∧
      Word.Fits (max atLower atUpper - 1) ∧
      Word.Fits (if negative then -remainderBound else 0) := by
  intro quotientBound remainderBound
  have hnonneg : 0 ≤ quotientBound := Int.tdiv_nonneg hlargest (by omega)
  have hle : quotientBound ≤ largest := Int.tdiv_le_self _ hlargest
  unfold Word.Fits Word.least
  unfold Word.greatest at *
  refine ⟨by omega, by omega, by omega, ?_⟩
  split <;> omega

theorem faultless_variableDivision (hp : p.WellFormed) (ha : a.Below p.columns.size)
    (hb : b.Below p.columns.size) : Faultless (variableDivision a b) p := by
  refine .bounds hb fun bLower bUpper hbounds => ?_
  have hinterval : bLower ≤ bUpper := le_of_bounds hbounds
  dsimp only
  split
  · exact .throw (by nofun) p
  split
  · exact .throw (by nofun) p
  rename_i hzero
  refine (faultless_divisorCases hp hb).bind hp (steady_divisorCases b)
    fun cases q hcases hg₁ hq => ?_
  have haq : a.Below q.columns.size := ha.mono hg₁.size_le
  refine .check (.checkedAbs bLower) fun atLower hatLower => ?_
  refine .check (.checkedAbs bUpper) fun atUpper hatUpper => ?_
  refine .bounds haq fun aLower aUpper _ => ?_
  refine .check (.checkedAbs aLower) fun fromLower hfromLower => ?_
  refine .check (.checkedAbs aUpper) fun fromUpper hfromUpper => ?_
  have hlowerMem := checkedAbs_mem hatLower
  have hupperMem := checkedAbs_mem hatUpper
  have hfromLowerMem := checkedAbs_mem hfromLower
  have hfromUpperMem := checkedAbs_mem hfromUpper
  -- the bounds of the divisor have the same sign, and neither is zero
  have hlowerPos : 0 < atLower := by
    rw [checkedAbs_eq_ok hatLower]
    omega
  have hupperPos : 0 < atUpper := by
    rw [checkedAbs_eq_ok hatUpper]
    omega
  have hlargest : 0 ≤ max fromLower fromUpper := by omega
  have hfits := fits_of_division hlargest (by omega) hlowerPos hupperPos hlowerMem.2 hupperMem.2
    (aLower < 0)
  dsimp only at hfits ⊢
  rw [if_neg (by omega)]
  refine .check (.plain hfits.1) fun quotientBound hquotient => ?_
  refine .check (.plain hfits.2.2.1) fun bound hbound => ?_
  obtain rfl := plain_eq_ok hquotient
  obtain rfl := plain_eq_ok hbound
  refine .check (.plain hfits.2.1) fun leastQuotient _ => ?_
  refine .auxiliaryInt hq fun i s hi hg₂ hs => ?_
  refine .check (.plain hfits.2.2.2) fun leastRemainder _ => ?_
  refine .auxiliaryInt hs fun j t hj hg₃ ht => ?_
  have hle : q.columns.size ≤ t.columns.size := (hg₂.trans hg₃).size_le
  exact faultless_divisionRows ht (haq.mono hle) (Nat.lt_of_lt_of_le hi hg₃.size_le) hj
    fun entry hmem => (allBelow_of_divisorCases hp hcases entry hmem).mono hle

theorem faultless_divide (hp : p.WellFormed) (ha : a.Below p.columns.size)
    (hb : b.Below p.columns.size) : Faultless (divide a b) p := by
  unfold divide
  split
  · split
    · exact .throw (by nofun) p
    · exact .check (.checked _) fun _ _ => .pure _ p
  · exact faultless_variableDivision hp ha hb

theorem faultless_quotient (hp : p.WellFormed) (ha : a.Below p.columns.size)
    (hb : b.Below p.columns.size) : Faultless (quotient a b) p :=
  (faultless_divide hp ha hb).bind hp (steady_divide a b) fun _ _ _ _ _ => .pure _ _

theorem faultless_remainder (hp : p.WellFormed) (ha : a.Below p.columns.size)
    (hb : b.Below p.columns.size) : Faultless (remainder a b) p :=
  (faultless_divide hp ha hb).bind hp (steady_divide a b) fun _ _ _ _ _ => .pure _ _

theorem faultless_repeatedProduct {base acc : Affine} {count : Nat} (hp : p.WellFormed)
    (hbase : base.Below p.columns.size) (hacc : acc.Below p.columns.size) :
    Faultless (repeatedProduct base count acc) p := by
  induction count generalizing p acc with
  | zero => exact .pure _ p
  | succ count ih =>
    refine (faultless_product hp hacc hbase).bind hp (steady_product acc base)
      fun next q h hgrows hq => ?_
    exact ih hq (hbase.mono hgrows.size_le) (computes_of_product hp hacc hbase h).below

theorem faultless_power {base : Affine} {exponent : Int} (hp : p.WellFormed)
    (hbase : base.Below p.columns.size) : Faultless (power base exponent) p := by
  unfold power
  split
  · exact .throw (by nofun) p
  split
  · exact .check (.checked _) fun _ _ => .pure _ p
  · exact faultless_repeatedProduct hp hbase (Affine.below_const _ _)

/-! ## Lowered values -/

theorem faultless_booleanView (hp : p.WellFormed) (he : e.Below p.columns.size) :
    Faultless (booleanView e) p := by
  refine .get (.check (.literalView he) fun view _ => ?_)
  cases view with
  | some l => exact .pure l p
  | none =>
    refine .bounds he fun lower upper _ => ?_
    dsimp only
    split
    · exact faultless_reify hp ⟨he, Affine.below_const _ _⟩
    · exact .throw (by nofun) p

theorem faultless_affineOf {v : Lowered} (hp : p.WellFormed) (hv : v.Over p) :
    Faultless (affineOf v) p := by
  cases hv with
  | relation hr =>
    exact (faultless_reify hp hr).bind hp (steady_reify _) fun _ _ _ _ _ => .pure _ _
  | sequence _ => exact .throw (by nofun) p
  | _ => exact .pure _ p

theorem faultless_literalOf {v : Lowered} (hp : p.WellFormed) (hv : v.Over p) :
    Faultless (literalOf v) p := by
  cases hv with
  | const c => exact faultless_constantLiteral _ p
  | literal _ => exact .pure _ p
  | column hi => exact faultless_booleanView hp (Affine.below_ofColumn.2 hi)
  | affine he => exact faultless_booleanView hp he
  | relation hr => exact faultless_reify hp hr
  | sequence _ => exact .throw (by nofun) p

end Linearization.Lowering
