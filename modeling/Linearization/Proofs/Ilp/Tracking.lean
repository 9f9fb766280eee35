import Linearization.Proofs.Ilp.Matched

/-!
# Lowerings that track each other

Lowerings of corresponding arguments in matched programs track each other: where one succeeds, the
other one does too, with a corresponding result, or a number leaves its range on the way. Each lemma
walks the two lowerings side by side; they take the same branches, since these are chosen by what
corresponding values have in common.

Encodings do not correspond, since a program may have kept one already. But whether a form can be
encoded depends on its bounds and the enumeration limit alone (`Ilp.Enumerable`).
-/

namespace Linearization

open Ilp

variable {roles : Option Nat → Option Nat → Prop} {M : Matching Nat} {p p' q : Ilp}
  {e e' a a' b b' : Affine} {l l' : Literal} {r r' : Relation}

/-! ## Domains that can be enumerated -/

/-- The form has a single value, or few enough of them for the limits. -/
def Ilp.Enumerable (p : Ilp) (e : Affine) : Prop :=
  ∃ lower upper, p.bounds e = .ok (lower, upper) ∧ (lower = upper ∨
    Word.span lower upper ≤ p.enumerationLimit ∧ Word.span lower upper ≤ Encoding.capacity)

namespace Ilp

theorem bounds_of_below (hg : p.Grows q) (he : e.Below p.columns.size) :
    q.bounds e = p.bounds e := by
  have hfrom : ∀ (ts : List Term) (b : Int × Int), (∀ t ∈ ts, t.column < p.columns.size) →
      q.boundsFrom ts b = p.boundsFrom ts b := by
    intro ts
    induction ts with
    | nil => exact fun _ _ => rfl
    | cons t ts ih =>
      rintro ⟨lower, upper⟩ hts
      rw [List.forall_mem_cons] at hts
      have hc := Array.getElem?_eq_getElem hts.1
      simp only [boundsFrom, hc, hg.column hc, ih _ hts.2]
  unfold Ilp.bounds
  rw [hfrom e.terms _ he]

/-- The bounds of a constant form can only be the constant. -/
theorem eq_of_asConstant {k : Int} {b : Int × Int} (h : e.asConstant = some k)
    (hb : p.bounds e = .ok b) : b = (k, k) := by
  obtain ⟨lower, upper⟩ := b
  have hfrom := (bounds_eq_ok.1 hb).1
  unfold Affine.asConstant at h
  split at h
  · rename_i hterms
    cases h
    rw [hterms] at hfrom
    cases hfrom
    rfl
  · cases h

namespace Enumerable

theorem mono (h : p.Enumerable e) (hg : p.Grows q) : q.Enumerable e := by
  obtain ⟨lower, upper, hb, hsize⟩ := h
  exact ⟨lower, upper, hg.bounds hb, hg.enumerationLimit.symm ▸ hsize⟩

theorem of_grows (h : q.Enumerable e) (hg : p.Grows q) (he : e.Below p.columns.size) :
    p.Enumerable e := by
  obtain ⟨lower, upper, hb, hsize⟩ := h
  exact ⟨lower, upper, bounds_of_below hg he ▸ hb, hg.enumerationLimit ▸ hsize⟩

end Enumerable

end Ilp

namespace Lowering

/-- What is encoded could be enumerated, also where an earlier encoding was found. -/
theorem enumerable_of_encode (hp : p.WellFormed) {encoding : Encoding}
    (h : encode e p = .ok encoding q) : p.Enumerable e := by
  obtain ⟨⟨lower, upper⟩, _, hrun, h⟩ := bind_eq_ok.1 h
  obtain ⟨hb, rfl⟩ := Lowering.bounds_eq_ok.1 hrun
  refine ⟨lower, upper, hb, or_iff_not_imp_left.2 fun hne => ?_⟩
  dsimp only at h
  rw [if_neg hne] at h
  obtain ⟨_, _, hget, h⟩ := bind_eq_ok.1 h
  obtain ⟨rfl, rfl⟩ := get_eq_ok.1 hget
  cases hkept : p.encoding? e with
  | some kept =>
    obtain ⟨entry, hfind, rfl⟩ := Option.map_eq_some_iff.1 hkept
    have hmem := List.mem_of_find?_eq_some hfind
    obtain ⟨lower', upper', hb', hvalues⟩ := (encodes_of_encoding? hp hkept).values
    cases hb.symm.trans hb'
    have hlength := congrArg List.length hvalues
    rw [List.length_map, interval, List.length_map, List.length_range] at hlength
    obtain ⟨-, hlimit, hcapacity⟩ := hp.sizes entry hmem
    rw [hlength] at hlimit hcapacity
    exact ⟨(Nat.min_le_left _ _).trans hlimit, (Nat.min_le_left _ _).trans hcapacity⟩
  | none =>
    rw [hkept] at h
    dsimp only at h
    split at h
    · cases throw_eq_ok.1 h
    rename_i hlimit
    split at h
    · cases throw_eq_ok.1 h
    rename_i hcapacity
    exact ⟨Nat.not_lt.1 hlimit, Nat.not_lt.1 hcapacity⟩

/-- What can be enumerated is encoded, unless a number leaves its range. -/
theorem failsOnly_encode (h : p.Enumerable e) :
    FailsOnly LoweringError.IsIncidental (encode e) p := by
  obtain ⟨lower, upper, hb, hsize⟩ := h
  have hrun : Lowering.bounds e p = .ok (lower, upper) p := Lowering.bounds_eq_ok.2 ⟨hb, rfl⟩
  refine .bind (.of_ok hrun) fun _ _ hrun' => ?_
  cases hrun.symm.trans hrun'
  dsimp only
  split
  · exact (Incidental.trueLiteral.bind fun _ => .pure _) p
  rename_i hne
  obtain ⟨hlimit, hcapacity⟩ := hsize.resolve_left hne
  have hget : (get : Lowering Ilp) p = .ok p p := rfl
  refine .bind (.of_ok hget) fun _ _ hget' => ?_
  cases hget'
  cases p.encoding? e with
  | some kept => exact .pure kept p
  | none =>
    dsimp only
    rw [if_neg (Nat.not_lt.2 hlimit), if_neg (Nat.not_lt.2 hcapacity)]
    exact incidental_makeEncoding e lower upper p

theorem failsOnly_encode_of_bounds (h : ∀ b, p.bounds e = .ok b → p.Enumerable e) :
    FailsOnly LoweringError.IsIncidental (encode e) p := by
  cases hb : p.bounds e with
  | ok b => exact failsOnly_encode (h b hb)
  | error error =>
    have hrun : Lowering.bounds e p = .error error p := by
      show Lowering.ofExcept (p.bounds e) p = _
      rw [hb]
      rfl
    intro error' q' hfail
    cases (bind_of_error hrun).symm.trans hfail
    exact checksOnly_bounds p e error hb

theorem failsOnly_encode_of_asConstant {k : Int} (h : e.asConstant = some k) :
    FailsOnly LoweringError.IsIncidental (encode e) p :=
  failsOnly_encode_of_bounds fun b hb =>
    ⟨b.1, b.2, hb, by rw [eq_of_asConstant h hb]; exact .inl rfl⟩

theorem failsOnly_encode_of_matched (h : p.Matched roles M p') (he : e.Corresponds M e')
    (hp : p.Enumerable e) : FailsOnly LoweringError.IsIncidental (encode e') p' := by
  obtain ⟨lower, upper, hb, hsize⟩ := hp
  refine failsOnly_encode_of_bounds fun b hb' => ?_
  cases h.bounds_eq he hb hb'
  exact ⟨lower, upper, hb', h.limit ▸ hsize⟩

/-- Encodings are of no interest beyond the literals in them. -/
theorem tracks_encode (he : e.Corresponds M e') : Tracks roles M Anything (encode e) (encode e') :=
  .effect (steady_encode e) (composed_encode e) (steady_encode e') (composed_encode e')
    fun _ _ _ _ hmatched hrun => failsOnly_encode_of_matched hmatched he
      (enumerable_of_encode hmatched.left.wellFormed hrun)

/-! ## Truth values -/

theorem tracks_constantLiteral (value : Bool) :
    Tracks roles M Literal.Corresponds (constantLiteral value) (constantLiteral value) := by
  refine Tracks.trueLiteral.bind fun N _ l l' hl => ?_
  cases value with
  | true => exact .pure hl
  | false => exact .pure hl.negate

theorem tracks_enforce (r r' : Relation) (guards guards' : List Literal) :
    Tracks roles M Anything (enforce r guards) (enforce r' guards') :=
  .quiet (quiet_enforce r guards) (quiet_enforce r' guards')

theorem tracks_addClause (ls ls' guards guards' : List Literal) :
    Tracks roles M Anything (addClause ls guards) (addClause ls' guards') :=
  .quiet (quiet_addClause ls guards) (quiet_addClause ls' guards')

theorem tracks_reify (hr : r.Corresponds M r') :
    Tracks roles M Literal.Corresponds (reify r) (reify r') := by
  refine .read (fun p => checksOnly_truth p r') fun p p' o o' hmatched ho ho' => ?_
  cases hmatched.truth_eq hr ho ho'
  cases o with
  | some value => exact tracks_constantLiteral value
  | none =>
    exact (Tracks.auxiliaryBool "reif").bind fun N _ l l' hl =>
      (tracks_enforce _ _ _ _).bind fun N₁ h₁ _ _ _ =>
        (tracks_enforce _ _ _ _).bind fun N₂ h₂ _ _ _ => .pure (hl.mono (le_trans h₁ h₂))

/-- Either both forms are literals, or both are compared with one. -/
theorem tracks_booleanView (he : e.Corresponds M e') :
    Tracks roles M Literal.Corresponds (booleanView e) (booleanView e') := by
  refine .read (fun p => checksOnly_literalView p e') fun p p' o o' hmatched ho ho' => ?_
  cases hmatched.literalView he ho ho' with
  | some hl => exact .pure hl
  | none =>
    refine .bounds he fun bounds => ?_
    dsimp only
    split
    · exact tracks_reify ⟨he, rfl, .const M 1⟩
    · exact .throw _

theorem tracks_affineOf {v v' : Lowered} (hv : v.Corresponds M v') :
    Tracks roles M Affine.Corresponds (affineOf v) (affineOf v') := by
  cases hv with
  | const c => exact .pure (.const M c)
  | literal h => exact .pure h.toAffine
  | column h => exact .pure (.ofColumn h)
  | affine h => exact .pure h
  | relation h => exact (tracks_reify h).bind fun N _ l l' hl => .pure hl.toAffine
  | sequence h => exact .throw _

theorem tracks_literalOf {v v' : Lowered} (hv : v.Corresponds M v') :
    Tracks roles M Literal.Corresponds (literalOf v) (literalOf v') := by
  cases hv with
  | const c => exact tracks_constantLiteral _
  | literal h => exact .pure h
  | column h => exact tracks_booleanView (.ofColumn h)
  | affine h => exact tracks_booleanView h
  | relation h => exact tracks_reify h
  | sequence h => exact .throw _

/-! ## Connectives -/

section Connectives

variable {ls ls' : List Literal}

theorem tracks_gate (purpose : String) (single single' : Literal → Literal → List Literal)
    (whole whole' : Literal → List Literal) (ls ls' : List Literal) :
    Tracks roles M Literal.Corresponds
      (gate purpose single whole ls) (gate purpose single' whole' ls') := by
  have hquiet : ∀ (f : Literal → List Literal) (ls : List Literal),
      Quiet (ls.forM fun k => addClause (f k) []) := fun f ls =>
    ⟨.forM (fun k => steady_addClause (f k) []) ls, .forM (fun k => composed_addClause (f k) []) ls,
      .forM (fun k => incidental_addClause (f k) []) ls⟩
  exact (Tracks.auxiliaryBool purpose).bind fun N _ l l' hl =>
    (Tracks.quiet (hquiet (single l) ls) (hquiet (single' l') ls')).bind fun N₁ h₁ _ _ _ =>
      (tracks_addClause _ _ _ _).bind fun N₂ h₂ _ _ _ => .pure (hl.mono (le_trans h₁ h₂))

theorem tracks_conjunction (hls : List.Forall₂ (Literal.Corresponds M) ls ls') :
    Tracks roles M Literal.Corresponds (conjunction ls) (conjunction ls') := by
  rcases hls with _ | ⟨hl, _ | ⟨hk, hls⟩⟩
  · exact tracks_constantLiteral true
  · exact .pure hl
  · exact tracks_gate "and" (fun all l => [all.negate, l]) (fun all l => [all.negate, l])
      (fun all => _ ++ [all]) (fun all => _ ++ [all]) _ _

theorem tracks_disjunction (hls : List.Forall₂ (Literal.Corresponds M) ls ls') :
    Tracks roles M Literal.Corresponds (disjunction ls) (disjunction ls') := by
  rcases hls with _ | ⟨hl, _ | ⟨hk, hls⟩⟩
  · exact tracks_constantLiteral false
  · exact .pure hl
  · exact tracks_gate "or" (fun any l => [l.negate, any]) (fun any l => [l.negate, any])
      (fun any => _ ++ [any.negate]) (fun any => _ ++ [any.negate]) _ _

end Connectives

/-! ## Products -/

theorem tracks_absolute (he : e.Corresponds M e') :
    Tracks roles M Affine.Corresponds (absolute e) (absolute e') := by
  refine .bounds he fun bounds => ?_
  dsimp only
  split
  · exact .pure he
  split
  · exact .lift (.of_onlyOverflows (.scale _ _)) fun _ _ h h' => he.negated h h'
  refine .same (.of_onlyOverflows (.checkedAbs _)) fun atLower => ?_
  refine (Tracks.auxiliaryInt "abs" _ _).bind fun N₁ h₁ i j hij => ?_
  refine (Tracks.auxiliaryBool "sign").bind fun N₂ h₂ l l' _ => ?_
  refine (tracks_enforce _ _ _ _).bind fun N₃ h₃ _ _ _ => ?_
  refine Tracks.check (.of_onlyOverflows (.scale _ _)) fun _ _ _ _ => ?_
  exact (tracks_enforce _ _ _ _).bind fun N₄ h₄ _ _ _ =>
    .pure (.ofColumn (le_trans h₂ (le_trans h₃ h₄) _ _ hij))

theorem tracks_literalTimes (he : e.Corresponds M e') (l l' : Literal) :
    Tracks roles M Affine.Corresponds (literalTimes l e) (literalTimes l' e') := by
  refine .bounds he fun bounds => ?_
  refine (Tracks.auxiliaryInt "mul" _ _).bind fun N₁ h₁ i j hij => ?_
  exact (tracks_enforce _ _ _ _).bind fun N₂ h₂ _ _ _ =>
    (tracks_enforce _ _ _ _).bind fun N₃ h₃ _ _ _ =>
      .pure (.ofColumn (le_trans h₂ h₃ _ _ hij))

/-- The same factor has fewer values on both sides. -/
theorem tracks_encodedProduct (ha : a.Corresponds M a') (hb : b.Corresponds M b') :
    Tracks roles M Affine.Corresponds (encodedProduct a b) (encodedProduct a' b') := by
  refine .bounds ha fun aBounds => .bounds hb fun bBounds => ?_
  refine .same (.of_onlyOverflows (.checked _)) fun lower => ?_
  refine .same (.of_onlyOverflows (.checked _)) fun upper => ?_
  have hrest : ∀ {few few' : Affine} (many many' : Affine), few.Corresponds M few' →
      Tracks roles M Affine.Corresponds
        (do
          let encoding ← encode few
          let result ← auxiliaryInt "mul" lower upper
          multiplyEach result many encoding
          return .ofColumn result)
        (do
          let encoding ← encode few'
          let result ← auxiliaryInt "mul" lower upper
          multiplyEach result many' encoding
          return .ofColumn result) := fun many many' hfew =>
    (tracks_encode hfew).bind fun N₁ h₁ _ _ _ =>
      (Tracks.auxiliaryInt "mul" lower upper).bind fun N₂ h₂ i j hij =>
        (Tracks.quiet (quiet_multiplyEach _ _ _) (quiet_multiplyEach _ _ _)).bind
          fun N₃ h₃ _ _ _ => .pure (.ofColumn (h₃ _ _ hij))
  dsimp only
  split
  · exact hrest b b' ha
  · exact hrest a a' hb

theorem tracks_product (ha : a.Corresponds M a') (hb : b.Corresponds M b') :
    Tracks roles M Affine.Corresponds (product a b) (product a' b') := by
  have hscale : ∀ {e e' : Affine} (k : Int), e.Corresponds M e' →
      Tracks roles M Affine.Corresponds (MonadLiftT.monadLift (e.scale k))
        (MonadLiftT.monadLift (e'.scale k) : Lowering Affine) := fun k he =>
    .lift (.of_onlyOverflows (.scale _ _)) fun _ _ h h' => he.scale h h'
  unfold product
  rw [← ha.asConstant, ← hb.asConstant]
  split
  · exact hscale _ hb
  · exact hscale _ ha
  refine .read (fun p => checksOnly_literalView p a') fun p p' o o' hmatched ho ho' => ?_
  cases hmatched.literalView ha ho ho' with
  | some _ => exact tracks_literalTimes hb _ _
  | none =>
    refine .read (fun p => checksOnly_literalView p b') fun p p' o o' hmatched ho ho' => ?_
    cases hmatched.literalView hb ho ho' with
    | some _ => exact tracks_literalTimes ha _ _
    | none => exact tracks_encodedProduct ha hb

theorem tracks_repeatedProduct (hb : b.Corresponds M b') (ha : a.Corresponds M a') (count : Nat) :
    Tracks roles M Affine.Corresponds (repeatedProduct b count a)
      (repeatedProduct b' count a') := by
  induction count generalizing M a a' with
  | zero => exact .pure ha
  | succ count ih =>
    exact (tracks_product ha hb).bind fun N h acc acc' hacc => ih (hb.mono h) hacc

theorem tracks_power (hb : b.Corresponds M b') (exponent : Int) :
    Tracks roles M Affine.Corresponds (power b exponent) (power b' exponent) := by
  unfold power
  rw [← hb.asConstant]
  split
  · exact .throw _
  cases b.asConstant with
  | some k =>
    exact .same (.of_onlyOverflows (.checked _)) fun v => .pure (.const M v)
  | none => exact tracks_repeatedProduct hb (.const M 1) exponent.toNat

/-! ## Divisions -/

theorem tracks_divisorCases (hb : b.Corresponds M b') :
    Tracks roles M Anything (divisorCases b) (divisorCases b') := by
  unfold divisorCases
  rw [← hb.asConstant]
  cases b.asConstant with
  | some value => exact .pure trivial
  | none => exact (tracks_encode hb).bind fun N _ _ _ _ => .pure trivial

/-- Corresponding pairs of forms. -/
abbrev BothCorrespond (M : Matching Nat) (d d' : Affine × Affine) : Prop :=
  d.1.Corresponds M d'.1 ∧ d.2.Corresponds M d'.2

theorem tracks_variableDivision (ha : a.Corresponds M a') (hb : b.Corresponds M b') :
    Tracks roles M BothCorrespond (variableDivision a b) (variableDivision a' b') := by
  refine .bounds hb fun bBounds => ?_
  dsimp only
  split
  · exact .throw _
  split
  · exact .throw _
  refine (tracks_divisorCases hb).bind fun N₁ h₁ cases cases' _ => ?_
  refine Tracks.same (.of_onlyOverflows (.checkedAbs _)) fun atLower => ?_
  refine Tracks.same (.of_onlyOverflows (.checkedAbs _)) fun atUpper => ?_
  refine Tracks.bounds (ha.mono h₁) fun aBounds => ?_
  refine Tracks.same (.of_onlyOverflows (.checkedAbs _)) fun fromLower => ?_
  refine Tracks.same (.of_onlyOverflows (.checkedAbs _)) fun fromUpper => ?_
  split
  · exact .throw _
  refine Tracks.same (checksOnly_plain _) fun quotientBound => ?_
  refine Tracks.same (checksOnly_plain _) fun most => ?_
  refine Tracks.same (checksOnly_plain _) fun leastQuotient => ?_
  refine (Tracks.auxiliaryInt "div" _ _).bind fun N₂ h₂ i i' hi => ?_
  refine Tracks.same (checksOnly_plain _) fun leastRemainder => ?_
  refine (Tracks.auxiliaryInt "mod" _ _).bind fun N₃ h₃ j j' hj => ?_
  refine (Tracks.quiet (quiet_alignSign _ _ _ _) (quiet_alignSign _ _ _ _)).bind
    fun N₄ h₄ _ _ _ => ?_
  refine (Tracks.quiet (quiet_divideEach _ _ _ _) (quiet_divideEach _ _ _ _)).bind
    fun N₅ h₅ _ _ _ => ?_
  exact .pure ⟨.ofColumn (le_trans h₃ (le_trans h₄ h₅) _ _ hi), .ofColumn (le_trans h₄ h₅ _ _ hj)⟩

theorem tracks_divide (ha : a.Corresponds M a') (hb : b.Corresponds M b') :
    Tracks roles M BothCorrespond (divide a b) (divide a' b') := by
  unfold divide
  rw [← ha.asConstant, ← hb.asConstant]
  split
  · split
    · exact .throw _
    exact .same (.of_onlyOverflows (.checked _)) fun v => .pure ⟨.const M _, .const M _⟩
  · exact tracks_variableDivision ha hb

theorem tracks_quotient (ha : a.Corresponds M a') (hb : b.Corresponds M b') :
    Tracks roles M Affine.Corresponds (quotient a b) (quotient a' b') :=
  (tracks_divide ha hb).bind fun _ _ _ _ h => .pure h.1

theorem tracks_remainder (ha : a.Corresponds M a') (hb : b.Corresponds M b') :
    Tracks roles M Affine.Corresponds (remainder a b) (remainder a' b') :=
  (tracks_divide ha hb).bind fun _ _ _ _ h => .pure h.2

end Lowering

end Linearization
