import Linearization.Proofs.Translation.Additions
import Linearization.Proofs.Translation.Agreement
import Linearization.Proofs.Translation.Registration
import Linearization.Proofs.Translation.Repeats

/-!
# Equality in either order

Which side of an equality is an array element decides how it is imposed: the first element is
selected against the other side, which becomes a value before. Imposing the sides in the other order
does the same steps in another order, with one exception. An element that is a value asks that its
index stay within its array, and one that is selected does not. So if both sides are elements, one
order may be refused where the other is accepted (`Draft.Reachable.equality_symmetric`). Where both
orders are accepted, they permit the same.
-/

namespace Linearization

variable {a b e lhs rhs other index : Expr} {es array : List Expr} {guards : List Literal}
  {c : Comparison} {config : Config}

/-- All values between the bounds of the index are positions of the array. -/
def Draft.IndexFits (config : Config) (t : Draft) (array : List Expr) (index : Expr) : Prop :=
  ∃ form s lower upper, Translate.formBy (Translate.lowerExpr config) index t = .ok form s ∧
    s.program.bounds form = .ok (lower, upper) ∧ 0 ≤ lower ∧ upper < array.length

namespace Translate

open Draft Ilp Lowering

variable {t t' s r : Draft} {u : Unit} {limit depth : Nat}

/-! ## One call of the recursion -/

theorem Settles.unique {α : Type} {f : Nat → Deeper → Translate α} {m m' : Translate α}
    (h : Settles limit t.depth f m) (h' : Settles limit t.depth f m') : m t = m' t := by
  obtain ⟨⟨n, hn⟩, -⟩ := h t rfl
  obtain ⟨⟨n', hn'⟩, -⟩ := h' t rfl
  rw [← hn (max n n') (Nat.le_max_left n n') exhausted,
    ← hn' (max n n') (Nat.le_max_right n n') exhausted]

theorem lowers_lowerExpr (config : Config) (depth : Nat) (e : Expr) :
    Lowers config.maxDecompositionDepth depth e (lowerExpr config e) := by
  rintro t rfl
  exact (settlesLevel_within config.maxDecompositionDepth _ t.depth rfl).lower e t rfl

theorem imposes_imposeExpr (config : Config) (depth : Nat) (e : Expr) (guards : List Literal) :
    Imposes config.maxDecompositionDepth depth e guards (imposeExpr config e guards) := by
  rintro t rfl
  exact (settlesLevel_within config.maxDecompositionDepth _ t.depth rfl).impose e guards t rfl

theorem settles_form (config : Config) (depth : Nat) (e : Expr) :
    Settles config.maxDecompositionDepth depth
      (fun calls bottom => formBy (unrolled config.maxDecompositionDepth bottom calls).lower e)
      (formBy (lowerExpr config) e) :=
  (lowers_lowerExpr config depth e).bind fun v => .build e (affineOf v)

theorem settles_indexAndItems (config : Config) (depth : Nat) (array : List Expr) (index : Expr) :
    Settles config.maxDecompositionDepth depth (fun calls bottom => do
        let self := unrolled config.maxDecompositionDepth bottom calls
        let i ← formBy self.lower index
        let items ← array.mapM (formBy self.lower)
        return (i, items))
      (indexAndItems config array index) :=
  (settles_form config depth index).bind fun i =>
    (Settles.mapM fun e _ => settles_form config depth e).bind fun items => .pure (i, items)

theorem lowerExpr_element (config : Config) (array : List Expr) (index : Expr) :
    lowerExpr config (.element array index) =
      indexAndItems config array index >>= fun x =>
        selectItem (.element array index) x.1 x.2 := by
  funext t
  refine Settles.unique (lowers_lowerExpr config t.depth _) (.of_succ ?_)
  have hsettles := (settles_indexAndItems config t.depth array index).bind fun x =>
    .of_keeps (callFree_selectItem (.element array index) x.1 x.2).keepsDepth
  simp only [bind_assoc, pure_bind] at hsettles
  exact hsettles

/-- The item at an index equals another value. -/
def imposeItem (config : Config) (e : Expr) (array : List Expr) (index other : Expr)
    (guards : List Literal) : Translate Unit := do
  let x ← indexAndItems config array index
  let target ← formBy (lowerExpr config) other
  build e (enforceElement x.1 x.2 target guards)

/-- A comparison item by item. -/
def imposeItems (config : Config) (c : Comparison) (lhs rhs : Expr) (guards : List Literal) :
    Translate Unit := do
  let left ← lowerExpr config lhs
  let right ← lowerExpr config rhs
  match left.pairUp right with
  | some pairs => imposePairs (.compare c lhs rhs) c guards pairs
  | none => throw (.shapeMismatch left.length right.length)

theorem imposeExpr_compare (config : Config) (c : Comparison) (lhs rhs : Expr)
    (guards : List Literal) :
    imposeExpr config (.compare c lhs rhs) guards =
      match itemEquality? c lhs rhs with
      | some (array, index, other) =>
        imposeItem config (.compare c lhs rhs) array index other guards
      | none => imposeItems config c lhs rhs guards := by
  funext t
  refine Settles.unique (imposes_imposeExpr config t.depth _ guards) (.of_succ ?_)
  show Settles _ _ (fun calls bottom => Deeper.callImposeComparison
    (unrolled config.maxDecompositionDepth bottom calls) c lhs rhs guards) _
  unfold Deeper.callImposeComparison
  cases itemEquality? c lhs rhs with
  | some found =>
    obtain ⟨array, index, other⟩ := found
    have hsettles := (settles_indexAndItems config t.depth array index).bind fun x =>
      (settles_form config t.depth other).bind fun target =>
        .build (.compare c lhs rhs) (enforceElement x.1 x.2 target guards)
    simp only [bind_assoc, pure_bind] at hsettles
    exact hsettles
  | none =>
    refine (lowers_lowerExpr config t.depth lhs).bind fun left => ?_
    refine (lowers_lowerExpr config t.depth rhs).bind fun right => ?_
    cases left.pairUp right with
    | some pairs => exact .of_keeps (callFree_imposePairs _ c guards pairs).keepsDepth
    | none => exact .throw _

/-! ## Item by item -/

theorem failsOnly_build {α : Type} (e : Expr) {action : Lowering α}
    (h : FailsOnly LoweringError.IsIncidental action t.program) :
    FailsOnly TranslationError.IsIncidental (build e action) t := by
  intro error t' hrun
  unfold build at hrun
  cases haction : action t.program with
  | ok a q =>
    rw [haction] at hrun
    cases hrun
  | error cause q =>
    rw [haction] at hrun
    cases hrun
    exact .lowering e (h cause q haction)

/-- The value is a single one. -/
def IsSingle (v : Lowered) : Prop := ∀ items, v ≠ .sequence items

theorem IsSingle.of_corresponds {M : Matching Nat} {v v' : Lowered} (h : v.Corresponds M v')
    (hv : IsSingle v) : IsSingle v' := by
  rintro items rfl
  cases h with
  | sequence _ => exact hv _ rfl

theorem isSingle_ofAffine (form : Affine) : IsSingle (.ofAffine form) := by
  intro items h
  unfold Lowered.ofAffine at h
  split at h <;> cases h

theorem incidental_affineOf {v : Lowered} (hv : IsSingle v) : Incidental (affineOf v) := by
  cases v with
  | sequence items => exact absurd rfl (hv items)
  | relation r => exact (incidental_reify r).bind fun _ => .pure _
  | _ => exact .pure _

theorem failsOnly_imposePairs (e : Expr) (c : Comparison) (guards : List Literal)
    {pairs : List (Lowered × Lowered)} (h : ∀ pair ∈ pairs, IsSingle pair.1 ∧ IsSingle pair.2) :
    FailsOnly TranslationError.IsIncidental (imposePairs e c guards pairs) t := by
  induction pairs generalizing t with
  | nil => exact .pure () t
  | cons pair pairs ih =>
    rw [List.forall_mem_cons] at h
    refine (failsOnly_build e (incidental_affineOf h.1.1 _)).bind fun l t₁ _ => ?_
    refine (failsOnly_build e (incidental_affineOf h.1.2 _)).bind fun r t₂ _ => ?_
    exact (failsOnly_build e (incidental_enforce _ _ _)).bind fun _ t₃ _ => ih h.2

theorem isSingle_of_imposePairs {pairs : List (Lowered × Lowered)}
    (h : imposePairs e c guards pairs t = .ok u t') :
    ∀ pair ∈ pairs, IsSingle pair.1 ∧ IsSingle pair.2 := by
  have hsingle : ∀ {v : Lowered}, (v.value? fun _ => 0).isSome → IsSingle v := by
    rintro v hv items rfl
    cases hv
  intro pair hpair
  obtain ⟨hl, hr⟩ := isSome_of_imposePairs h (fun _ => 0) pair hpair
  exact ⟨hsingle hl, hsingle hr⟩

theorem forall₂_zip {α α' β β' : Type} {R : α → α' → Prop} {S : β → β' → Prop} {as : List α}
    {as' : List α'} {bs : List β} {bs' : List β'} (ha : List.Forall₂ R as as')
    (hb : List.Forall₂ S bs bs') :
    List.Forall₂ (fun x y => R x.1 y.2 ∧ S x.2 y.1) (as.zip bs) (bs'.zip as') := by
  induction ha generalizing bs bs' with
  | nil =>
    cases hb with
    | nil => exact .nil
    | cons _ _ => exact .nil
  | cons h _ ih =>
    cases hb with
    | nil => exact .nil
    | cons h' hs' => exact .cons ⟨h, h'⟩ (ih hs')

theorem pairUp_swap {R S : Lowered → Lowered → Prop} {left left' right right' : Lowered}
    {pairs : List (Lowered × Lowered)} (hl : List.Forall₂ R left.items left'.items)
    (hr : List.Forall₂ S right.items right'.items) (h : left.pairUp right = some pairs) :
    ∃ pairs', right'.pairUp left' = some pairs' ∧
      List.Forall₂ (fun x y => R x.1 y.2 ∧ S x.2 y.1) pairs pairs' := by
  unfold Lowered.pairUp at h ⊢
  generalize left.items = ls, left'.items = ls', right.items = rs, right'.items = rs' at *
  have hone : ∀ {l l'}, R l l' → List.Forall₂ (fun x y => R x.1 y.2 ∧ S x.2 y.1)
      (rs.map fun r => (l, r)) (rs'.map fun r => (r, l')) := fun h => by
    rw [List.forall₂_map_left_iff, List.forall₂_map_right_iff]
    exact hr.imp fun _ _ h' => ⟨h, h'⟩
  have hone' : ∀ {r r'}, S r r' → List.Forall₂ (fun x y => R x.1 y.2 ∧ S x.2 y.1)
      (ls.map fun l => (l, r)) (ls'.map fun l => (r', l)) := fun h' => by
    rw [List.forall₂_map_left_iff, List.forall₂_map_right_iff]
    exact hl.imp fun _ _ h => ⟨h, h'⟩
  rcases hl with _ | ⟨hl, _ | ⟨hl', hls⟩⟩ <;> rcases hr with _ | ⟨hr, _ | ⟨hr', hrs⟩⟩
  -- The left side is empty.
  · cases h
    exact ⟨_, rfl, .nil⟩
  · cases h
    exact ⟨_, rfl, .nil⟩
  · cases h
  -- The left side has one item.
  · cases h
    exact ⟨_, rfl, .nil⟩
  · cases h
    exact ⟨_, rfl, hone hl⟩
  · cases h
    exact ⟨_, rfl, hone hl⟩
  -- The left side has more.
  · cases h
  · cases h
    exact ⟨_, rfl, hone' hr⟩
  · dsimp only at h ⊢
    split at h
    · rename_i hlength
      cases h
      refine ⟨_, if_pos ?_, forall₂_zip (.cons hl (.cons hl' hls)) (.cons hr (.cons hr' hrs))⟩
      simpa [hls.length_eq, hrs.length_eq] using hlength.symm
    · cases h

theorem failsOnly_imposeItems_swap (ht : t.Orderly)
    (ha : a.AllVars (Var.InScope t.program.columns.size))
    (hb : b.AllVars (Var.InScope t.program.columns.size))
    (h : imposeItems config c a b guards t = .ok u t') (d : Comparison) :
    FailsOnly TranslationError.IsIncidental (imposeItems config d b a guards) t := by
  obtain ⟨left, s, hleft, h⟩ := bind_eq_ok.1 h
  obtain ⟨right, r, hright, h⟩ := bind_eq_ok.1 h
  have hts := (keeps_lowerExpr config a).of_ok hleft
  have hs := (repeats_lowerExpr config ha).orderly ht hleft
  obtain ⟨hfails, hsame⟩ := (repeats_lowerExpr config hb).earlier hts ht hs hright
  refine hfails.bind fun right' s' hright' => ?_
  obtain ⟨w, -, hw⟩ := hsame hright'
  have hts' := (keeps_lowerExpr config b).of_ok hright'
  have hs' := (repeats_lowerExpr config hb).orderly ht hright'
  obtain ⟨hfails, hsame⟩ := (repeats_lowerExpr config ha).later hts' ht hs' hleft
  refine hfails.bind fun left' r' hleft' => ?_
  obtain ⟨w', -, hw'⟩ := hsame hleft'
  cases hpairs : left.pairUp right with
  | none =>
    rw [hpairs] at h
    cases throw_eq_ok.1 h
  | some pairs =>
    rw [hpairs] at h
    obtain ⟨pairs', hpairs', hpairwise⟩ := pairUp_swap hw'.items hw.items hpairs
    rw [hpairs']
    refine failsOnly_imposePairs _ d guards (forall_mem_of_forall₂ (P := fun _ => True) ?_
      ((List.forall₂_and_left _ _).2 ⟨isSingle_of_imposePairs h, hpairwise⟩)).2
    rintro x y ⟨⟨hl, hr⟩, hl', hr'⟩
    exact ⟨trivial, hr.of_corresponds hr', hl.of_corresponds hl'⟩

/-! ## Elements as values -/

section Elements

variable {roles : Option Nat → Option Nat → Prop} {M : Matching Nat} {p : Ilp}
  {i i' target : Affine} {items items' : List Affine} {lower upper : Int} {v : Lowered}

theorem failsOnly_enforceElement (h : FailsOnly LoweringError.IsIncidental (encode i) p) :
    FailsOnly LoweringError.IsIncidental (enforceElement i items target guards) p :=
  h.bind fun _ q _ => incidental_selectEach items target guards _ q

theorem enumerable_of_enforceElement {q : Ilp} (hp : p.WellFormed)
    (h : enforceElement i items target guards p = .ok u q) : p.Enumerable i := by
  obtain ⟨encoding, q₁, hencode, -⟩ := bind_eq_ok.1 h
  exact enumerable_of_encode hp hencode

/-- An index whose bounds are positions of the array is not refused. -/
theorem failsOnly_selectItem (h : p.Matched roles M t.program) (hi : i.Corresponds M i')
    (hb : p.bounds i = .ok (lower, upper)) (hlower : 0 ≤ lower) (hupper : upper < items.length)
    (henum : p.Enumerable i) :
    FailsOnly TranslationError.IsIncidental (selectItem e i' items) t := by
  have hle := le_of_bounds hb
  unfold selectItem
  split
  · rename_i position hconst
    -- the bounds on the left can only be the constant
    cases eq_of_asConstant (hi.asConstant.trans hconst) hb
    obtain ⟨item, -, hitem⟩ := exists_itemAt? hlower hupper
    rw [hitem]
    exact .pure _ t
  refine (failsOnly_build e ?_).bind fun found t₁ hrun => ?_
  · exact Incidental.get (fun p => .liftM (checksOnly_hull p items)) _
  obtain ⟨hhull, rfl⟩ := hull_eq_ok hrun
  cases found with
  | none =>
    rw [eq_nil_of_hull hhull] at hupper
    exact absurd (hlower.trans hle) (Int.not_le.2 hupper)
  | some interval =>
    refine (failsOnly_build e ?_).bind fun range t₁ hrun => ?_
    · exact Incidental.get (fun p => .liftM (checksOnly_bounds p i')) _
    obtain ⟨q, hq, rfl⟩ := build_eq_ok.1 hrun
    obtain ⟨hb', rfl⟩ := Lowering.bounds_eq_ok.1 hq
    cases h.bounds_eq hi hb hb'
    dsimp only
    rw [if_neg (by omega)]
    refine (failsOnly_build e ?_).bind fun target t₁ hrun => ?_
    · exact .of_ok rfl
    obtain ⟨q, hq, rfl⟩ := build_eq_ok.1 hrun
    obtain ⟨-, name, rfl⟩ := auxiliaryInt_eq_ok hq
    refine (failsOnly_build e (failsOnly_enforceElement ?_)).bind fun _ t₁ _ => .pure _ _
    refine failsOnly_encode (Enumerable.mono ?_ (t.program.grows_withColumn _))
    obtain ⟨_, _, hb'', hsize⟩ := henum
    cases hb.symm.trans hb''
    exact ⟨lower, upper, hb', h.limit ▸ hsize⟩

/-- An index that is not refused has positions of the array as bounds. -/
theorem fits_of_selectItem (h : p.Matched roles M t.program) (hi : i.Corresponds M i')
    (hb : p.bounds i = .ok (lower, upper)) (hselect : selectItem e i' items t = .ok v t') :
    0 ≤ lower ∧ upper < items.length := by
  cases hconst : i'.asConstant with
  | some position =>
    cases eq_of_asConstant (hi.asConstant.trans hconst) hb
    obtain ⟨item, hitem, -⟩ := selectItem_constant_eq_ok hconst hselect
    exact itemAt?_isSome.1 (Option.isSome_iff_exists.2 ⟨item, hitem⟩)
  | none =>
    obtain ⟨_, _, _, _, _, _, _, _, hhull, hb', hrange, -⟩ :=
      selectItem_varying_eq_ok hconst hselect
    cases h.bounds_eq hi hb hb'
    have hlength : items.length ≠ 0 := fun hzero => by
      rw [List.length_eq_zero_iff.1 hzero] at hhull
      cases hhull
    omega

/-- An index that varies is encoded to select an item. -/
theorem enumerable_of_selectItem (ht : t.program.WellFormed) (hconst : i.asConstant = none)
    (h : selectItem e i items t = .ok v t') : t.program.Enumerable i := by
  obtain ⟨_, _, _, _, _, q, _, _, -, hb, -, hcolumn, henforce, -⟩ :=
    selectItem_varying_eq_ok hconst h
  obtain ⟨hgrows, hq⟩ : t.program.Grows q ∧ q.WellFormed :=
    ⟨(steady_auxiliaryInt _ _ _).grows ht hcolumn,
      (steady_auxiliaryInt _ _ _).wellFormed ht hcolumn⟩
  exact (enumerable_of_enforceElement hq henforce).of_grows hgrows (below_of_bounds hb)

theorem isSingle_of_selectItem (h : selectItem e i items t = .ok v t') : IsSingle v := by
  cases hconst : i.asConstant with
  | some position =>
    obtain ⟨item, -, rfl, -⟩ := selectItem_constant_eq_ok hconst h
    exact isSingle_ofAffine item
  | none =>
    obtain ⟨_, _, _, _, _, _, _, _, -, -, -, -, -, rfl, -⟩ := selectItem_varying_eq_ok hconst h
    exact nofun

end Elements

/-! ## The index and the items of an element -/

variable {x y : Affine × List Affine} {lower upper : Int} {v : Lowered} {form target : Affine}

/-- The form of an expression uses columns of the draft that it is made in. -/
theorem below_of_formBy (ht : t.Sound) (h : formBy (lowerExpr config) e t = .ok form s) :
    form.Below s.program.columns.size := by
  obtain ⟨v, t₁, hlower, hform⟩ := bind_eq_ok.1 h
  have hmeets : Contract.unrestricted.Meets IsOver (lowerExpr config e) t :=
    meets_lowerExpr config ⟨ht, trivial⟩ trivial
  exact (meets_affineOf (hmeets.holds_of_ok hlower)
    (hmeets.returns v t₁ hlower)).returns form s hform

theorem length_of_forms {forms : List Affine}
    (h : es.mapM (formBy (lowerExpr config)) t = .ok forms t') : forms.length = es.length := by
  induction es generalizing t forms with
  | nil =>
    obtain ⟨rfl, -⟩ := pure_eq_ok.1 h
    rfl
  | cons e es ih =>
    rw [List.mapM_cons] at h
    obtain ⟨form, t₁, -, h⟩ := bind_eq_ok.1 h
    obtain ⟨rest, t₂, hrest, h⟩ := bind_eq_ok.1 h
    obtain ⟨rfl, rfl⟩ := pure_eq_ok.1 h
    rw [List.length_cons, List.length_cons, ih hrest]

theorem indexAndItems_eq_ok (h : indexAndItems config array index t = .ok x s) :
    ∃ s₁, formBy (lowerExpr config) index t = .ok x.1 s₁ ∧ s₁.Continues s ∧
      x.2.length = array.length := by
  obtain ⟨i, s₁, hindex, h⟩ := bind_eq_ok.1 h
  obtain ⟨items, s₂, hitems, h⟩ := bind_eq_ok.1 h
  obtain ⟨rfl, rfl⟩ := pure_eq_ok.1 h
  exact ⟨s₁, hindex, (keeps_forms config array).of_ok hitems, length_of_forms hitems⟩

/-- An index for which an item was enforced could be encoded as soon as its form was there. -/
theorem exists_bounds_of_enforceElement (ht : t.Orderly)
    (hx : indexAndItems config array index t = .ok x s) (hsr : s.Continues r) {q : Ilp}
    (h : enforceElement x.1 x.2 target guards r.program = .ok u q) :
    s.program.Enumerable x.1 ∧ ∃ lower upper, s.program.bounds x.1 = .ok (lower, upper) ∧
      (t.IndexFits config array index ↔ 0 ≤ lower ∧ upper < x.2.length) := by
  obtain ⟨s₁, hindex, hitems, hlength⟩ := indexAndItems_eq_ok hx
  obtain ⟨-, hs₁⟩ := ((keeps_formBy config index).of_ok hindex).sound ht.sound
  obtain ⟨hgrows, hs⟩ := hitems.sound hs₁
  obtain ⟨hgrows', hr⟩ := hsr.sound hs
  have hbelow := below_of_formBy ht.sound hindex
  have henum : s₁.program.Enumerable x.1 :=
    (enumerable_of_enforceElement hr.program h).of_grows (hgrows.trans hgrows').program hbelow
  refine ⟨henum.mono hgrows.program, ?_⟩
  obtain ⟨lower, upper, hb, -⟩ := henum
  refine ⟨lower, upper, hgrows.program.bounds hb, ?_⟩
  constructor
  · rintro ⟨form, s', lower', upper', hindex', hb', hfits⟩
    cases hindex.symm.trans hindex'
    cases hb.symm.trans hb'
    rwa [hlength]
  · rintro ⟨hlower, hupper⟩
    exact ⟨x.1, s₁, lower, upper, hindex, hb, hlower, hlength ▸ hupper⟩

/-- After other steps, an element whose index was encoded is a value exactly if the bounds of the
index are positions of the array. -/
theorem lowerExpr_element_later (ht : t.Orderly)
    (ha : (Expr.element array index).AllVars (Var.InScope t.program.columns.size))
    (hx : indexAndItems config array index t = .ok x s) (henum : s.program.Enumerable x.1)
    (hb : s.program.bounds x.1 = .ok (lower, upper)) (htr : t.Continues r) (hr : r.Orderly) :
    (0 ≤ lower ∧ upper < x.2.length →
      FailsOnly TranslationError.IsIncidental (lowerExpr config (.element array index)) r) ∧
    ∀ {v r'}, lowerExpr config (.element array index) r = .ok v r' →
      IsSingle v ∧ 0 ≤ lower ∧ upper < x.2.length := by
  obtain ⟨hfails, hsame⟩ := (repeats_indexAndItems config ha).later htr ht hr hx
  rw [lowerExpr_element]
  constructor
  · rintro ⟨hlower, hupper⟩
    refine hfails.bind fun y r' hy => ?_
    obtain ⟨w, hmatched, hindex, hitems⟩ := hsame hy
    rw [hitems.length_eq] at hupper
    exact failsOnly_selectItem hmatched.program hindex hb hlower hupper henum
  · intro v r' h
    obtain ⟨y, r₁, hy, hselect⟩ := bind_eq_ok.1 h
    obtain ⟨w, hmatched, hindex, hitems⟩ := hsame hy
    rw [hitems.length_eq]
    exact ⟨isSingle_of_selectItem hselect, fits_of_selectItem hmatched.program hindex hb hselect⟩

/-- An index that was encoded to select an item can be encoded later where it was made earlier. -/
theorem failsOnly_encode_earlier {w : Pairing} (hr : r.Matched w s) (hsame : SameItems w x y)
    (hselect : selectItem e x.1 x.2 r = .ok v t') (hst : s.Continues t) :
    FailsOnly LoweringError.IsIncidental (encode y.1) t.program := by
  obtain ⟨hor, hos⟩ := hr.orderly
  obtain ⟨hgrows, ht⟩ := hst.sound hos.sound
  have hregular : t.program.Regular := ⟨ht.program, hst.marksTrue hos.program.marksTrue⟩
  obtain ⟨N, hN, hmatched⟩ := hr.program.grow_right hgrows.program hregular
  cases hconst : x.1.asConstant with
  | some k => exact failsOnly_encode_of_asConstant (hsame.1.asConstant.symm.trans hconst)
  | none =>
    exact failsOnly_encode_of_matched hmatched (hsame.1.mono hN)
      (enumerable_of_selectItem hor.sound.program hconst hselect)

section Both

variable {items : List Expr} {place : Expr} {d : Expr} (ht : t.Orderly)
  (ha : (Expr.element array index).AllVars (Var.InScope t.program.columns.size))
  (hb : (Expr.element items place).AllVars (Var.InScope t.program.columns.size))
  (h : imposeItem config e array index (.element items place) guards t = .ok u t')

include ht ha hb h

/-- Two elements can be imposed in the other order if the index of the first one fits. -/
theorem failsOnly_imposeItem_swap (hfits : t.IndexFits config array index) :
    FailsOnly TranslationError.IsIncidental
      (imposeItem config d items place (.element array index) guards) t := by
  obtain ⟨x, s, hx, h⟩ := bind_eq_ok.1 h
  obtain ⟨target, r, htarget, h⟩ := bind_eq_ok.1 h
  obtain ⟨q, henforce, -⟩ := build_eq_ok.1 h
  have hts := (repeats_indexAndItems config ha).keeps.of_ok hx
  have hs := (repeats_indexAndItems config ha).orderly ht hx
  obtain ⟨henum, lower, upper, hbounds, hiff⟩ := exists_bounds_of_enforceElement ht hx
    ((keeps_formBy config (.element items place)).of_ok htarget) henforce
  obtain ⟨v, r₁, hv, -⟩ := bind_eq_ok.1 htarget
  rw [lowerExpr_element] at hv
  obtain ⟨y, r₀, hy, hselect⟩ := bind_eq_ok.1 hv
  -- The index and the items of the second element come first now.
  obtain ⟨hfails, hsame⟩ := (repeats_indexAndItems config hb).earlier hts ht hs hy
  refine hfails.bind fun y' s' hy' => ?_
  obtain ⟨w, hmatched, hsame⟩ := hsame hy'
  have hts' := (repeats_indexAndItems config hb).keeps.of_ok hy'
  have hlater := lowerExpr_element_later ht ha hx henum hbounds hts' hmatched.orderly.2
  have hform : FailsOnly TranslationError.IsIncidental
      (formBy (lowerExpr config) (.element array index)) s' :=
    (hlater.1 (hiff.1 hfits)).bind fun v' r' hv' =>
      failsOnly_build _ (incidental_affineOf (hlater.2 hv').1 _)
  refine hform.bind fun target' r' htarget' => ?_
  exact failsOnly_build d (failsOnly_enforceElement (failsOnly_encode_earlier hmatched hsame hselect
    ((keeps_formBy config (.element array index)).of_ok htarget')))

/-- If two elements can be imposed in either order, the index of each one fits. -/
theorem indexFits_of_imposeItem {u' : Unit} {swapped : Draft}
    (hswapped : imposeItem config d items place (.element array index) guards t = .ok u' swapped) :
    t.IndexFits config array index := by
  obtain ⟨x, s, hx, h⟩ := bind_eq_ok.1 h
  obtain ⟨target, r, htarget, h⟩ := bind_eq_ok.1 h
  obtain ⟨q, henforce, -⟩ := build_eq_ok.1 h
  obtain ⟨henum, lower, upper, hbounds, hiff⟩ := exists_bounds_of_enforceElement ht hx
    ((keeps_formBy config (.element items place)).of_ok htarget) henforce
  obtain ⟨y, s', hy, hswapped⟩ := bind_eq_ok.1 hswapped
  obtain ⟨target', r', htarget', -⟩ := bind_eq_ok.1 hswapped
  obtain ⟨v, r₁, hv, -⟩ := bind_eq_ok.1 htarget'
  have hts' := (repeats_indexAndItems config hb).keeps.of_ok hy
  have hs' := (repeats_indexAndItems config hb).orderly ht hy
  exact hiff.2 ((lowerExpr_element_later ht ha hx henum hbounds hts' hs').2 hv).2

end Both

/-! ## Equality -/

theorem itemEquality?_of_right (h : ∀ items place, a ≠ .element items place) :
    itemEquality? .eq a (.element array index) = some (array, index, a) := by
  cases a with
  | element items place => exact absurd rfl (h items place)
  | _ => rfl

theorem itemEquality?_of_neither (ha : ∀ items place, a ≠ .element items place)
    (hb : ∀ items place, b ≠ .element items place) : itemEquality? .eq a b = none := by
  cases a with
  | element items place => exact absurd rfl (ha items place)
  | _ =>
    cases b with
    | element items place => exact absurd rfl (hb items place)
    | _ => rfl

/-- What is said to be imposed only shows in failures. -/
theorem imposeItem_congr (h : imposeItem config e array index other guards t = .ok u t')
    (d : Expr) :
    imposeItem config d array index other guards t = .ok u t' := by
  obtain ⟨x, s, hx, h⟩ := bind_eq_ok.1 h
  obtain ⟨target, r, htarget, h⟩ := bind_eq_ok.1 h
  exact bind_eq_ok.2 ⟨x, s, hx,
    bind_eq_ok.2 ⟨target, r, htarget, build_eq_ok.2 (build_eq_ok.1 h)⟩⟩

/-- The other order of an equality that was imposed fails incidentally or because the index of the
first of two elements does not fit. -/
theorem failsOnly_equals_swap (ht : t.Orderly)
    (ha : a.AllVars (Var.InScope t.program.columns.size))
    (hb : b.AllVars (Var.InScope t.program.columns.size))
    (h : imposeExpr config (a.equals b) guards t = .ok u t')
    (hfits : ∀ array index items place, a = .element array index → b = .element items place →
      t.IndexFits config array index) :
    FailsOnly TranslationError.IsIncidental (imposeExpr config (b.equals a) guards) t := by
  unfold Expr.equals at h ⊢
  rw [imposeExpr_compare] at h ⊢
  by_cases hleft : ∃ array index, a = .element array index
  · obtain ⟨array, index, rfl⟩ := hleft
    by_cases hright : ∃ items place, b = .element items place
    · obtain ⟨items, place, rfl⟩ := hright
      exact failsOnly_imposeItem_swap ht ha hb h (hfits _ _ _ _ rfl rfl)
    · rw [itemEquality?_of_right fun items place heq => hright ⟨items, place, heq⟩]
      exact .of_ok (imposeItem_congr h _)
  · have hnot : ∀ items place, a ≠ .element items place := fun items place heq =>
      hleft ⟨items, place, heq⟩
    by_cases hright : ∃ items place, b = .element items place
    · obtain ⟨items, place, rfl⟩ := hright
      rw [itemEquality?_of_right hnot] at h
      exact .of_ok (imposeItem_congr h _)
    · have hnot' : ∀ items place, b ≠ .element items place := fun items place heq =>
        hright ⟨items, place, heq⟩
      rw [itemEquality?_of_neither hnot hnot'] at h
      rw [itemEquality?_of_neither hnot' hnot]
      exact failsOnly_imposeItems_swap ht ha hb h .eq

/-- With all variables registered and guards on columns, an incidental failure is a number that
leaves its range. -/
theorem exists_ok_of_failsOnly (ht : t.Sound) (he : t.layout.Covers e)
    (hg : ∀ l ∈ guards, t.program.IsTruth l)
    (h : FailsOnly TranslationError.IsIncidental (imposeExpr config e guards) t)
    (hrange : ∀ d s, imposeExpr config e guards t ≠ .error (.ofLowering d .overflow) s) :
    ∃ u t', imposeExpr config e guards t = .ok u t' := by
  cases hrun : imposeExpr config e guards t with
  | ok u t' => exact ⟨u, t', rfl⟩
  | error error s =>
    cases h error s hrun with
    | unregistered name => exact absurd rfl (imposeExpr_ne_unregistered ht he hrun name)
    | lowering d hcause =>
      cases hcause with
      | overflow => exact absurd hrun (hrange d s)
      | fault hcapacity =>
        have hguards : Contract.unrestricted.Guards guards t := fun _ l hl => (hg l hl).column_lt
        have hmeets := meets_imposeExpr config (C := .unrestricted) ⟨ht, trivial⟩ (e := e) trivial
          hguards
        obtain ⟨size, hsize, -⟩ := (hmeets.explains _ _ hrun).fault trivial _ rfl
        exact absurd hsize (hcapacity size)

/-! ## What both orders permit -/

theorem holdsItemwise_eq_comm (as bs : List (Option Int)) :
    Comparison.eq.holdsItemwise as bs = Comparison.eq.holdsItemwise bs as := by
  have hone : ∀ (j : Option Int) (ks : List (Option Int)),
      ks.all (Comparison.eq.holds? j ·) = ks.all (Comparison.eq.holds? · j) := fun j ks =>
    congrArg ks.all (funext fun k => holds?_eq_comm j k)
  have hzip : ∀ js ks : List (Option Int),
      js.zipWith Comparison.eq.holds? ks = ks.zipWith Comparison.eq.holds? js := fun js ks => by
    rw [List.zipWith_comm]
    exact congrArg (fun f => List.zipWith f ks js) (funext₂ fun _ _ => holds?_eq_comm _ _)
  rcases as with _ | ⟨j, _ | ⟨j', as⟩⟩ <;> rcases bs with _ | ⟨k, _ | ⟨k', bs⟩⟩
  · rfl
  · rfl
  · rfl
  · rfl
  · exact hone j [k]
  · exact hone j _
  · rfl
  · exact (hone k _).symm
  · exact congrArg₂ and (decide_eq_decide.2 eq_comm) (congrArg (List.all · id) (hzip _ _))

theorem meets_equals_comm {σ : Valuation} : (a.equals b).Meets σ ↔ (b.equals a).Meets σ := by
  unfold Expr.equals
  rw [Expr.meets_compare_iff, Expr.meets_compare_iff]
  constructor
  · rintro ⟨l, r, hl, hr, h⟩
    exact ⟨r, l, hr, hl, (holdsItemwise_eq_comm _ _).trans h⟩
  · rintro ⟨l, r, hl, hr, h⟩
    exact ⟨r, l, hr, hl, (holdsItemwise_eq_comm _ _).trans h⟩

theorem registersImposed_equals_comm {k : VarKey} :
    (a.equals b).RegistersImposed k ↔ (b.equals a).RegistersImposed k := by
  unfold Expr.equals
  rw [Expr.registersImposed_compare_iff, Expr.registersImposed_compare_iff,
    Expr.registers_compare_iff, Expr.registers_compare_iff, or_comm]

end Translate

namespace Draft

open Translate

variable {t posted swapped : Draft} {P : VarKey → Prop} {M : Valuation → Prop} {u u' : Unit}
  {σ : Valuation}

/-- What enforces a condition permits what any other way to enforce it permits, if it registers no
more. -/
theorem Enforces.exists_solves (h : t.Enforces posted P guards M)
    (h' : t.Enforces swapped P guards M)
    (hhas : ∀ v : Var, P v.toVarKey → swapped.layout.Has v → posted.layout.Has v) {x : Assignment}
    (hx : posted.program.Solves x) :
    ∃ y, AgreeBelow t.program.columns.size x y ∧ swapped.program.Solves y := by
  have hbefore : t.Carries P (posted.layout.valuation x) x := fun v hv _ =>
    (h.grows.layout.valuation hv).symm
  have hwithin : swapped.Within P (posted.layout.valuation x) := fun v hv hP =>
    h.wellFormed.admits hx (hhas v hP hv)
  obtain ⟨y, hxy, hy, -⟩ := h'.complete _ x (h.grows.program.solves hx) hbefore hwithin
    fun hg => h.sound _ x hx (fun _ _ _ => rfl) hg
  exact ⟨y, hxy, hy⟩

/-- One order of an equality leaves all the values of the columns before that the other order
leaves. -/
theorem exists_solves_equals_swap (hwf : t.WellFormed) (ha : a.Among P) (hb : b.Among P)
    (hP : ∀ v : Var, P v.toVarKey → t.layout.Has v ∨ v.IsDeclared)
    (hg : ∀ l ∈ guards, t.program.IsTruth l)
    (h : imposeExpr config (a.equals b) guards t = .ok u posted)
    (h' : imposeExpr config (b.equals a) guards t = .ok u' swapped) {x : Assignment}
    (hx : posted.program.Solves x) :
    ∃ y, AgreeBelow t.program.columns.size x y ∧ swapped.program.Solves y := by
  have hscopes : t.Scopes P := fun v hv => (hP v hv).elim (hwf.inScope v) (·.inScope _)
  have henforces := enforces_imposeExpr hwf hscopes (.compare ha hb) hg h
  refine henforces.exists_solves ((enforces_imposeExpr hwf hscopes (.compare hb ha) hg h').congr
    fun σ => meets_equals_comm) (fun v hv hhas => ?_) hx
  rcases hP v hv with hbefore | hdeclared
  · exact henforces.grows.layout.has hbefore
  · refine (adds_imposeExpr config _ guards h v hdeclared).2 ?_
    refine ((adds_imposeExpr config _ guards h' v hdeclared).1 hhas).imp_right fun hk => ?_
    exact registersImposed_equals_comm.1 hk

/-- Let an equality be imposed. Then it can be imposed with its sides exchanged, unless both sides
are elements and the index of the first one leaves its array; that a number leaves its range is
excluded here. Where both orders are imposed, they permit the same values of the variables that
were registered before. -/
theorem Reachable.equality_symmetric (ht : t.Reachable config)
    (hvars : ∀ v ∈ (a.equals b).vars, t.layout.Has v)
    (hnew : ∀ v : Var, (a.equals b).Introduces v.toVarKey → v.IsDeclared)
    (hg : ∀ l ∈ guards, t.program.IsTruth l)
    (h : imposeExpr config (a.equals b) guards t = .ok u posted)
    (hrange : ∀ d s,
      imposeExpr config (b.equals a) guards t ≠ .error (.ofLowering d .overflow) s) :
    ((∃ u' swapped, imposeExpr config (b.equals a) guards t = .ok u' swapped) ↔
      ∀ array index items place, a = .element array index → b = .element items place →
        t.IndexFits config array index) ∧
    ∀ u' swapped, imposeExpr config (b.equals a) guards t = .ok u' swapped →
      ∀ σ, posted.Permits t.layout σ ↔ swapped.Permits t.layout σ := by
  have hwf := ht.wellFormed
  obtain ⟨ha, hb⟩ : a.Among (t.scopeOf (a.equals b)) ∧ b.Among (t.scopeOf (a.equals b)) := by
    cases among_scopeOf hvars with
    | compare ha hb => exact ⟨ha, hb⟩
  have hP : ∀ v : Var, t.scopeOf (a.equals b) v.toVarKey → t.layout.Has v ∨ v.IsDeclared :=
    fun v hv => hv.imp_right (hnew v)
  have hscope : ∀ v : Var, t.scopeOf (a.equals b) v.toVarKey →
      v.InScope t.program.columns.size := fun v hv =>
    (hP v hv).elim (hwf.inScope v) (·.inScope _)
  refine ⟨⟨?_, fun hfits => ?_⟩, fun u' swapped h' σ => ?_⟩
  · rintro ⟨u', swapped, h'⟩ array index items place rfl rfl
    unfold Expr.equals at h h'
    rw [imposeExpr_compare] at h h'
    exact indexFits_of_imposeItem ht.orderly (ha.mono hscope) (hb.mono hscope) h h'
  · have hcovers : t.layout.Covers (b.equals a) := fun v hv => by
      refine Layout.covers_of_vars hvars v ?_
      simp only [Expr.equals, Expr.occurrences, List.mem_append] at hv ⊢
      exact hv.symm
    exact exists_ok_of_failsOnly ht.wellFormed.sound hcovers hg
      (failsOnly_equals_swap ht.orderly (ha.mono hscope) (hb.mono hscope) h hfits) hrange
  · constructor
    · rintro ⟨x, hx, hσ⟩
      obtain ⟨y, hxy, hy⟩ := exists_solves_equals_swap hwf ha hb hP hg h h' hx
      exact ⟨y, hy, fun v hv => hwf.valuation_congr hxy ▸ hσ v hv⟩
    · rintro ⟨x, hx, hσ⟩
      obtain ⟨y, hxy, hy⟩ := exists_solves_equals_swap hwf hb ha hP hg h' h hx
      exact ⟨y, hy, fun v hv => hwf.valuation_congr hxy ▸ hσ v hv⟩

/-- Two elements with indices that fit, imposed under a guard in either order. -/
theorem equality_symmetric_of_elements :
    let g : Var := ⟨⟨.declared 0, .bool⟩, "g"⟩
    let i : Var := ⟨⟨.declared 1, .int 0 1⟩, "i"⟩
    let j : Var := ⟨⟨.declared 2, .int 0 1⟩, "j"⟩
    let a : Expr := .element [.const 1, .const 2] (.var i)
    let b : Expr := .element [.const 2, .const 3] (.var j)
    let t :=
      stateAfter (register j) (stateAfter (register i) (stateAfter (register g) (start 4096)))
    let guards : List Literal := [.ofColumn 0]
    ∃ posted swapped u u', imposeExpr {} (a.equals b) guards t = .ok u posted ∧
      imposeExpr {} (b.equals a) guards t = .ok u' swapped ∧
      t.IndexFits {} [.const 1, .const 2] (.var i) ∧
      ∀ σ, posted.Permits t.layout σ ↔ swapped.Permits t.layout σ := by
  intro g i j a b t guards
  have ht : t.Reachable {} :=
    .register (.register (.register .start fun column hc => by cases hc)
      fun column hc => by cases hc) fun column hc => by cases hc
  have hvars : ∀ v ∈ (a.equals b).vars, t.layout.Has v := by decide
  have hconst : ∀ k : Int, (Expr.const k).AllParts fun d => ∀ g, d ≠ .global g :=
    fun k => .of_children nofun (List.forall_mem_nil _) nofun
  have hindex : ∀ v : Var, (Expr.var v).AllParts fun d => ∀ g, d ≠ .global g :=
    fun v => .of_children nofun (List.forall_mem_nil _) nofun
  have helement : ∀ (k l : Int) (v : Var), (Expr.element [.const k, .const l] (.var v)).AllParts
      fun d => ∀ g, d ≠ .global g := fun k l v =>
    .of_children nofun (List.forall_mem_cons.2 ⟨hconst k,
      List.forall_mem_cons.2 ⟨hconst l, List.forall_mem_singleton.2 (hindex v)⟩⟩) nofun
  have hparts : (a.equals b).AllParts fun d => ∀ g, d ≠ .global g :=
    .of_children nofun (List.forall_mem_cons.2 ⟨helement 1 2 i,
      List.forall_mem_singleton.2 (helement 2 3 j)⟩) nofun
  have hnew : ∀ v : Var, (a.equals b).Introduces v.toVarKey → v.IsDeclared := by
    rintro v ⟨g, hg, -⟩
    exact absurd rfl (hparts _ hg g)
  have hg : ∀ l ∈ guards, t.program.IsTruth l :=
    List.forall_mem_singleton.2 ⟨_, rfl, by decide, by decide⟩
  have hrun : succeedsWith (imposeExpr {} (a.equals b) guards) t (fun _ _ => true) = true := by
    decide +kernel
  have hrun' : succeedsWith (imposeExpr {} (b.equals a) guards) t (fun _ _ => true) = true := by
    decide +kernel
  obtain ⟨u, posted, h, -⟩ := exists_of_succeedsWith hrun
  obtain ⟨u', swapped, h', -⟩ := exists_of_succeedsWith hrun'
  obtain ⟨hiff, hsame⟩ := ht.equality_symmetric hvars hnew hg h fun d s hs => by
    cases h'.symm.trans hs
  exact ⟨posted, swapped, u, u', h, h', hiff.1 ⟨u', swapped, h'⟩ _ _ _ _ rfl rfl,
    hsame u' swapped h'⟩

/-- Two elements, of which the index of the first one leaves its array: imposed in this order, the
first one is only selected, but in the other order it has to be a value. -/
theorem equality_refused_of_elements :
    let i : Var := ⟨⟨.declared 0, .int 0 5⟩, "i"⟩
    let j : Var := ⟨⟨.declared 1, .int 0 1⟩, "j"⟩
    let a : Expr := .element [.const 1, .const 2] (.var i)
    let b : Expr := .element [.const 2, .const 3] (.var j)
    let t := stateAfter (register j) (stateAfter (register i) (start 4096))
    t.Reachable {} ∧ (∀ v ∈ (a.equals b).vars, t.layout.Has v) ∧
      (∃ u posted, imposeExpr {} (a.equals b) [] t = .ok u posted) ∧
      ∃ e s,
        imposeExpr {} (b.equals a) [] t = .error (.untranslatable e (.indexDomain 0 5 1)) s := by
  intro i j a b t
  have hrun : succeedsWith (imposeExpr {} (a.equals b) []) t (fun _ _ => true) = true := by
    decide +kernel
  have hrefused : (match imposeExpr {} (b.equals a) [] t with
      | .error (.untranslatable _ (.indexDomain lower upper last)) _ =>
        decide (lower = 0 ∧ upper = 5 ∧ last = 1)
      | _ => false) = true := by
    decide +kernel
  have ht : t.Reachable {} :=
    .register (.register .start fun column hc => by cases hc) fun column hc => by cases hc
  obtain ⟨u, posted, h, -⟩ := exists_of_succeedsWith hrun
  refine ⟨ht, by decide, ⟨u, posted, h⟩, ?_⟩
  split at hrefused
  · rename_i e lower upper last s herror
    obtain ⟨rfl, rfl, rfl⟩ := of_decide_eq_true hrefused
    exact ⟨e, s, herror⟩
  · cases hrefused

end Draft

end Linearization
