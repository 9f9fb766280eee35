import Linearization.Proofs.Ilp.Choice
import Linearization.Proofs.Ilp.Division
import Linearization.Proofs.Translation.Denotes

/-!
# Operations on forms and literals

What the steps between the subexpressions of an expression and the expression itself define: the
connectives and the arithmetic operators are those of the integers, the chosen item is the one at
the index, and the extremum is the smallest or the largest form.
-/

namespace Linearization

/-- The truth value of a connective. -/
def Operator.truth : Operator → List Bool → Bool
  | .and, bs => bs.all id
  | .implies, [a, b] => !a || b
  | _, bs => bs.any id

/-- The smallest of several values, or the largest. -/
def GlobalKind.pick (kind : GlobalKind) (vs : List Int) : Option Int :=
  if kind = .min then vs.min? else vs.max?

/-- How the smallest of several values, or the largest, compares with all of them. -/
def GlobalKind.bounding (kind : GlobalKind) : Comparison :=
  if kind = .min then .le else .ge

namespace Translate

open Ilp Literal Lowering

variable {α : Type} {p q : Ilp} {t t' : Draft} {e : Expr} {args : List Expr} {n : Lowered}
  {c index : Affine} {forms items : List Affine} {l : Literal} {ls : List Literal} {o : Operator}
  {σ : Valuation} {x : Assignment} {vs : List Int} {kind : GlobalKind}

/-! ## Connectives -/

theorem apply_connective (ho : o.IsConnective) (harity : o = .implies → vs.length = 2) :
    o.apply vs = some (ofTruth (o.truth (vs.map fun k => decide (k ≠ 0)))) := by
  rcases ho with rfl | rfl | rfl
  · show some (ofTruth (vs.all _)) = some (ofTruth ((vs.map _).all id))
    rw [List.all_map]
    rfl
  · show some (ofTruth (vs.any _)) = some (ofTruth ((vs.map _).any id))
    rw [List.any_map]
    rfl
  · obtain ⟨v, w, rfl⟩ := List.length_eq_two.1 (harity rfl)
    show some (ofTruth (decide (v = 0) || decide (w ≠ 0))) =
      some (ofTruth (!decide (v ≠ 0) || decide (w ≠ 0)))
    by_cases hv : v = 0 <;> simp [hv]

theorem value?_connective (ho : o.IsConnective) (harity : o = .implies → args.length = 2)
    (h : ∀ a ∈ args, (a.value? σ).isSome) :
    (Expr.op o args).value? σ = some (ofTruth (o.truth (args.map (Expr.isTrue σ)))) := by
  obtain ⟨vs, hvs⟩ := valuesOf_eq_map_some h
  have hlength : vs.length = args.length := by
    have := congrArg List.length hvs
    rwa [valuesOf_eq_map, List.length_map, List.length_map, eq_comm] at this
  rw [Expr.value?, hvs, mapM_id_map_some, map_isTrue hvs]
  exact apply_connective ho fun heq => hlength.trans (harity heq)

theorem reifies_of_connective (hp : p.WellFormed) (ho : o.IsConnective)
    (harity : o = .implies → ls.length = 2) (hls : ∀ l ∈ ls, p.IsTruth l)
    (h : connective o ls p = .ok l q) :
    p.Reifies q l fun x => o.truth (ls.map fun l => decide (l.Holds x)) = true := by
  rcases ho with rfl | rfl | rfl
  · refine (Lowering.reifies_of_conjunction hp hls h).congr fun x _ => ?_
    simp [Operator.truth, AllHold]
  · refine (Lowering.reifies_of_disjunction hp hls h).congr fun x _ => ?_
    simp [Operator.truth, AnyHold]
  · obtain ⟨a, b, rfl⟩ := List.length_eq_two.1 (harity rfl)
    have ha : p.IsTruth a := hls a List.mem_cons_self
    have hb : p.IsTruth b := hls b (List.mem_cons_of_mem _ List.mem_cons_self)
    have hboth : ∀ k ∈ [a.negate, b], p.IsTruth k := by simpa using ⟨ha, hb⟩
    have hdisjunction := Lowering.reifies_of_disjunction hp hboth h
    refine hdisjunction.congr fun x hx => ?_
    have hnegate := ha.holds_negate (hdisjunction.defines.grows.solves hx)
    simp [Operator.truth, AnyHold, hnegate]

/-! ## Arithmetic -/

/-- The sum of several forms. -/
theorem computes_of_foldlM_plus (hp : p.WellFormed)
    (hforms : ∀ form ∈ forms, form.Below p.columns.size)
    (h : Lowering.ofExcept (forms.foldlM Affine.plus (.const 0)) p = .ok c q) :
    p.Computes q c fun x => (forms.map (·.eval x)).sum := by
  obtain ⟨hsum, rfl⟩ := Lowering.liftM_eq_ok.1 h
  have hbelow : c.Below p.columns.size :=
    .of_foldlM (fun form hform d d' hd h => .of_plus h hd (hforms form hform))
      (Affine.below_const _ 0) hsum
  refine .refl hp hbelow fun x _ => ?_
  have hvalue : c.eval x = 0 + 1 * (forms.map (·.eval x)).sum := Affine.eval_of_foldlM
    (fun hplus => by rw [Affine.eval_of_plus hplus, Int.one_mul]) hsum
  rw [hvalue, Int.zero_add, Int.one_mul]

theorem defines_of_computes {action : Lowering Affine} (h : build e action t = .ok c t')
    {f : Assignment → Int}
    (hf : ∀ q, action t.program = .ok c q → t.program.Computes q c f) :
    c.Below t'.program.columns.size ∧ t.Defines t' fun _ x => c.eval x = f x := by
  refine ⟨?_, defines_of_build h fun q hq => (hf q hq).defines⟩
  obtain ⟨q, hq, rfl⟩ := build_eq_ok.1 h
  exact (hf q hq).below

theorem computes_of_ofExcept {r : Except LoweringError Affine} {f : Assignment → Int}
    (hp : p.WellFormed) (h : ofExcept r p = .ok c q)
    (hr : r = .ok c → c.Below p.columns.size ∧ ∀ x, c.eval x = f x) : p.Computes q c f := by
  obtain ⟨hc, rfl⟩ := liftM_eq_ok.1 h
  exact .refl hp (hr hc).1 fun x _ => (hr hc).2 x

theorem defines_apply {action : Lowering Affine} {f : Assignment → Int}
    (h : build e action t = .ok c t')
    (hf : ∀ q, action t.program = .ok c q → t.program.Computes q c f)
    (ho : ∀ x, t'.program.Solves x → o.apply (forms.map (·.eval x)) = some (f x)) :
    c.Below t'.program.columns.size ∧
      t.Defines t' fun _ x => o.apply (forms.map (·.eval x)) = some (c.eval x) := by
  obtain ⟨hbelow, hd⟩ := defines_of_computes h hf
  refine ⟨hbelow, hd.weaken fun x hx heval => ?_⟩
  rw [ho x hx, heval]

theorem defines_arithmetic (hp : t.program.WellFormed) (ho : o.IsArithmetic)
    (harity : ∀ k, o.arity = some k → forms.length = k)
    (hforms : ∀ form ∈ forms, form.Below t.program.columns.size)
    (h : arithmetic o args forms t = .ok c t') :
    c.Below t'.program.columns.size ∧
      t.Defines t' fun _ x => o.apply (forms.map (·.eval x)) = some (c.eval x) := by
  have hone : o.arity = some 1 → ∃ a, forms = [a] ∧ a.Below t.program.columns.size := fun ho => by
    obtain ⟨a, rfl⟩ := List.length_eq_one_iff.1 (harity 1 ho)
    exact ⟨a, rfl, hforms a List.mem_cons_self⟩
  have htwo : o.arity = some 2 → ∃ a b, forms = [a, b] ∧ a.Below t.program.columns.size ∧
      b.Below t.program.columns.size := fun ho => by
    obtain ⟨a, b, rfl⟩ := List.length_eq_two.1 (harity 2 ho)
    exact ⟨a, b, rfl, hforms a List.mem_cons_self,
      hforms b (List.mem_cons_of_mem _ List.mem_cons_self)⟩
  rcases ho with rfl | rfl | rfl | rfl | rfl | rfl | rfl | rfl
  · obtain ⟨a, rfl, ha⟩ := hone rfl
    exact defines_apply h (fun q hq => computes_of_ofExcept hp hq fun hc =>
      ⟨.of_negated hc ha, Affine.eval_of_negated hc⟩) fun x _ => rfl
  · obtain ⟨a, rfl, -⟩ := hone rfl
    exact defines_apply h (fun q hq => computes_of_absolute hp hq) fun x _ => rfl
  · obtain ⟨a, b, rfl, ha, hb⟩ := htwo rfl
    exact defines_apply h (fun q hq => computes_of_ofExcept hp hq fun hc =>
      ⟨.of_minus hc ha hb, Affine.eval_of_minus hc⟩) fun x _ => rfl
  · obtain ⟨a, b, rfl, ha, hb⟩ := htwo rfl
    exact defines_apply h (fun q hq => computes_of_product hp ha hb hq) fun x _ => rfl
  · obtain ⟨a, b, rfl, -, -⟩ := htwo rfl
    obtain ⟨q, hq, rfl⟩ := build_eq_ok.1 h
    exact defines_apply h (fun q hq => (computes_of_quotient hp hq).1) fun x hx =>
      if_neg ((computes_of_quotient hp hq).2 x hx)
  · obtain ⟨a, b, rfl, -, -⟩ := htwo rfl
    obtain ⟨q, hq, rfl⟩ := build_eq_ok.1 h
    exact defines_apply h (fun q hq => (computes_of_remainder hp hq).1) fun x hx =>
      if_neg ((computes_of_remainder hp hq).2 x hx)
  · obtain ⟨a, b, rfl, ha, -⟩ := htwo rfl
    unfold arithmetic at h
    dsimp only at h
    cases hb : b.asConstant with
    | none =>
      rw [hb] at h
      cases throw_eq_ok.1 h
    | some exponent =>
      rw [hb] at h
      dsimp only at h
      obtain ⟨q, hq, rfl⟩ := build_eq_ok.1 h
      refine defines_apply h (fun q hq => (computes_of_power hp ha hq).2) fun x _ => ?_
      have hexponent : ¬ exponent < 0 := Int.not_lt.2 (computes_of_power hp ha hq).1
      show (if b.eval x < 0 then none else some (a.eval x ^ (b.eval x).toNat)) = _
      rw [Affine.eval_of_asConstant hb, if_neg hexponent]
  · exact defines_apply h (fun q hq => computes_of_foldlM_plus hp hforms hq) fun x _ => rfl

/-! ## Items and extrema -/

theorem hull_cons {form : Affine} {b : Option (Int × Int)} (h : hull p (form :: forms) = .ok b) :
    ∃ l u rest, p.bounds form = .ok (l, u) ∧ hull p forms = .ok rest ∧
      b = some (match rest with
        | none => (l, u)
        | some (l', u') => (min l l', max u u')) := by
  rw [hull] at h
  cases hb : p.bounds form with
  | error error => simp [hb, bind, Except.bind] at h
  | ok interval =>
    cases hrest : hull p forms with
    | error error => simp [hb, hrest, bind, Except.bind] at h
    | ok rest =>
      refine ⟨interval.1, interval.2, rest, rfl, rfl, ?_⟩
      cases rest with
      | none =>
        simp only [hb, hrest, bind, Except.bind, pure, Except.pure, Except.ok.injEq] at h
        rw [← h]
      | some r =>
        simp only [hb, hrest, bind, Except.bind, pure, Except.pure, Except.ok.injEq] at h
        rw [← h]

theorem le_of_hull {lower upper : Int} (h : hull p forms = .ok (some (lower, upper))) :
    lower ≤ upper := by
  cases forms with
  | nil => cases h
  | cons form forms =>
    obtain ⟨l, u, rest, hb, -, heq⟩ := hull_cons h
    have hle : l ≤ u := le_of_bounds hb
    cases rest with
    | none =>
      cases heq
      exact hle
    | some hull =>
      cases heq
      exact (Int.min_le_left _ _).trans (hle.trans (Int.le_max_left _ _))

/-- In a solution every form lies in the hull. -/
theorem mem_of_hull {lower upper : Int} (h : hull p forms = .ok (some (lower, upper)))
    (hx : p.Solves x) : ∀ form ∈ forms, lower ≤ form.eval x ∧ form.eval x ≤ upper := by
  induction forms generalizing lower upper with
  | nil => exact List.forall_mem_nil _
  | cons form forms ih =>
    obtain ⟨l, u, rest, hb, hrest, heq⟩ := hull_cons h
    have hmem := mem_of_bounds hb hx
    rw [List.forall_mem_cons]
    cases rest with
    | none =>
      cases heq
      cases forms with
      | nil => exact ⟨hmem, List.forall_mem_nil _⟩
      | cons d ds =>
        obtain ⟨_, _, _, _, _, hsome⟩ := hull_cons hrest
        cases hsome
    | some r =>
      obtain ⟨l', u'⟩ := r
      cases heq
      refine ⟨by omega, fun d hd => ?_⟩
      have := ih hrest d hd
      omega

theorem hull_eq_ok {b : Option (Int × Int)} (h : build e (do hull (← get) forms) t = .ok b t') :
    hull t.program forms = .ok b ∧ t = t' := by
  obtain ⟨q, hq, rfl⟩ := build_eq_ok.1 h
  simp only [bind_eq_ok, get_eq_ok] at hq
  obtain ⟨_, _, ⟨rfl, rfl⟩, hq⟩ := hq
  obtain ⟨hb, rfl⟩ := liftM_eq_ok.1 hq
  exact ⟨hb, rfl⟩

/-- The value of the item at the index. -/
def itemValue (index : Affine) (items : List Affine) (x : Assignment) : Int :=
  ((itemAt? items (index.eval x)).map (·.eval x)).getD 0

/-- A new column is the item at an index that is a position in every solution. -/
theorem computes_of_item {purpose : String} {lower upper : Int} {i : Nat} {q₁ : Ilp} {u : Unit}
    (hp : p.WellFormed) (hindex : index.Below p.columns.size)
    (hitems : ∀ item ∈ items, item.Below p.columns.size)
    (hpos : ∀ x, p.Solves x → 0 ≤ index.eval x ∧ index.eval x < items.length)
    (hhull : hull p items = .ok (some (lower, upper)))
    (h₁ : auxiliaryInt purpose lower upper p = .ok i q₁)
    (h₂ : enforceElement index items (.ofColumn i) [] q₁ = .ok u q) :
    p.Computes q (.ofColumn i) (itemValue index items) := by
  have hgrows := (steady_auxiliaryInt _ _ _).grows hp h₁
  have hitem : ∀ x, p.Solves x → ∃ item ∈ items,
      itemAt? items (index.eval x) = some item := fun x hx =>
    exists_itemAt? (hpos x hx).1 (hpos x hx).2
  have himposes := imposes_of_enforceElement ((steady_auxiliaryInt _ _ _).wellFormed hp h₁)
    (List.forall_mem_nil _) (hindex.mono hgrows.size_le)
    (Affine.below_ofColumn.2 (column_of_auxiliaryInt h₁).1)
    (fun item h => (hitems item h).mono hgrows.size_le) h₂
  refine computes_of_auxiliaryInt hp h₁ (himposes.congr fun x hx => ?_) (fun x y hxy => ?_)
    fun x hx => ?_
  · obtain ⟨item, -, hat⟩ := hitem x (hgrows.solves hx)
    simp [IsItemAt, itemValue, hat]
  · unfold itemValue
    rw [hindex.eval_congr hxy]
    cases hat : itemAt? items (index.eval y) with
    | none => rfl
    | some item => exact (hitems item (mem_of_itemAt? hat)).eval_congr hxy
  · obtain ⟨item, hmem, hat⟩ := hitem x hx
    rw [itemValue, hat]
    exact mem_of_hull hhull hx item hmem

/-- The item at a constant index is returned itself. -/
theorem selectItem_constant_eq_ok {position : Int} (hconst : index.asConstant = some position)
    (h : selectItem e index items t = .ok n t') :
    ∃ item, itemAt? items position = some item ∧ n = .ofAffine item ∧ t = t' := by
  unfold selectItem at h
  rw [hconst] at h
  dsimp only at h
  cases hitem : itemAt? items position with
  | none =>
    rw [hitem] at h
    cases throw_eq_ok.1 h
  | some item =>
    rw [hitem] at h
    obtain ⟨rfl, rfl⟩ := pure_eq_ok.1 h
    exact ⟨item, rfl, rfl, rfl⟩

/-- For an index that varies, but stays within the array, a column is made and enforced. -/
theorem selectItem_varying_eq_ok (hconst : index.asConstant = none)
    (h : selectItem e index items t = .ok n t') :
    ∃ lower upper first final i q₁ q₂ u, hull t.program items = .ok (some (lower, upper)) ∧
      t.program.bounds index = .ok (first, final) ∧
      ¬ (first < 0 ∨ final > ((items.length - 1 : Nat) : Int)) ∧
      auxiliaryInt "element" lower upper t.program = .ok i q₁ ∧
      enforceElement index items (.ofColumn i) [] q₁ = .ok u q₂ ∧
      n = .column i ∧ t' = { t with program := q₂ } := by
  unfold selectItem at h
  rw [hconst] at h
  dsimp only at h
  obtain ⟨b, t₁, h₁, h⟩ := bind_eq_ok.1 h
  obtain ⟨hhull, rfl⟩ := hull_eq_ok h₁
  cases b with
  | none => cases throw_eq_ok.1 h
  | some b =>
    obtain ⟨lower, upper⟩ := b
    dsimp only at h
    obtain ⟨⟨first, final⟩, t₁, h₁, h⟩ := bind_eq_ok.1 h
    obtain ⟨q, hq, rfl⟩ := build_eq_ok.1 h₁
    obtain ⟨hbounds, rfl⟩ := bounds_eq_ok.1 hq
    dsimp only at h
    split at h
    · cases throw_eq_ok.1 h
    · rename_i hrange
      obtain ⟨i, t₁, h₁, h⟩ := bind_eq_ok.1 h
      obtain ⟨q₁, hq₁, rfl⟩ := build_eq_ok.1 h₁
      obtain ⟨u, t₂, h₂, h⟩ := bind_eq_ok.1 h
      obtain ⟨q₂, hq₂, rfl⟩ := build_eq_ok.1 h₂
      obtain ⟨rfl, rfl⟩ := pure_eq_ok.1 h
      exact ⟨lower, upper, first, final, i, q₁, q₂, u, hhull, hbounds, hrange, hq₁, hq₂, rfl, rfl⟩

/-- The chosen item is the one at the index, which is a position in every solution. -/
theorem defines_selectItem (hp : t.program.WellFormed) (hindex : index.Below t.program.columns.size)
    (hitems : ∀ item ∈ items, item.Below t.program.columns.size)
    (h : selectItem e index items t = .ok n t') :
    n.Over t'.program ∧ t.Defines t' fun _ x =>
      ∃ item, itemAt? items (index.eval x) = some item ∧
        n.value? x = some (item.eval x) := by
  cases hconst : index.asConstant with
  | some position =>
    obtain ⟨item, hitem, rfl, rfl⟩ := selectItem_constant_eq_ok hconst h
    refine ⟨Lowered.over_ofAffine (hitems item (mem_of_itemAt? hitem)), .refl hp fun x _ => ?_⟩
    rw [Affine.eval_of_asConstant hconst]
    exact ⟨item, hitem, Lowered.value?_ofAffine x item⟩
  | none =>
    obtain ⟨lower, upper, first, final, i, q₁, q₂, u, hhull, hbounds, hrange, hq₁, hq₂, rfl, rfl⟩ :=
      selectItem_varying_eq_ok hconst h
    have hne : 0 < items.length := List.length_pos_iff.2 fun hnil => by
      rw [hnil] at hhull
      cases hhull
    have hpos : ∀ x, t.program.Solves x → 0 ≤ index.eval x ∧ index.eval x < items.length := by
      intro x hx
      have := mem_of_bounds hbounds hx
      omega
    have hcomputes := computes_of_item hp hindex hitems hpos hhull hq₁ hq₂
    refine ⟨.column (Affine.below_ofColumn.1 hcomputes.below),
      (Draft.Defines.of_program hcomputes.defines).weaken fun x hx heval => ?_⟩
    obtain ⟨item, hitem⟩ := Option.isSome_iff_exists.1
      (itemAt?_isSome.2 (hpos x (hcomputes.defines.grows.solves hx)))
    rw [Affine.eval_ofColumn, itemValue, hitem] at heval
    exact ⟨item, hitem, congrArg some heval⟩

/-- The function gives the value of a non-empty list that is in the relation to all its values. -/
structure PicksExtremum (f : List Int → Option Int) (op : Comparison) : Prop where
  eq_some_iff : ∀ vs k, f vs = some k ↔ k ∈ vs ∧ ∀ v ∈ vs, op.Holds k v
  isSome : ∀ vs, vs ≠ [] → (f vs).isSome

theorem picksExtremum_min : PicksExtremum List.min? .le where
  eq_some_iff _ _ := List.min?_eq_some_iff
  isSome _ := List.isSome_min?_of_ne_nil

theorem picksExtremum_max : PicksExtremum List.max? .ge where
  eq_some_iff _ _ := List.max?_eq_some_iff
  isSome _ := List.isSome_max?_of_ne_nil

theorem PicksExtremum.imposed_iff {f : List Int → Option Int} {op : Comparison} {target : Affine}
    (hf : PicksExtremum f op) :
    ((∀ e ∈ forms, op.Holds (target.eval x) (e.eval x)) ∧
      ∃ e ∈ forms, target.eval x = e.eval x) ↔
        f (forms.map (·.eval x)) = some (target.eval x) := by
  rw [hf.eq_some_iff, List.forall_mem_map, List.mem_map, and_comm]
  simp only [@eq_comm Int (target.eval x)]

/-- A new column within the hull of the forms can have their extremum as its value, and then it has
to. -/
theorem defines_pick {f : List Int → Option Int} {op : Comparison} (hf : PicksExtremum f op)
    {purpose : String} {lower upper : Int} {i : Nat} {q₁ : Ilp} {u : Unit} (hp : p.WellFormed)
    (hforms : ∀ form ∈ forms, form.Below p.columns.size)
    (hhull : hull p forms = .ok (some (lower, upper)))
    (h₁ : auxiliaryInt purpose lower upper p = .ok i q₁)
    (h₂ : addExtremum (.ofColumn i) forms op q₁ = .ok u q) :
    i < q.columns.size ∧ p.Defines q fun x => f (forms.map (·.eval x)) = some (x i) := by
  have hne : forms ≠ [] := fun hnil => by
    rw [hnil] at hhull
    cases hhull
  have hcolumn := (column_of_auxiliaryInt h₁).1
  have hgrows := (steady_auxiliaryInt _ _ _).grows hp h₁
  have himposes : q₁.Imposes q fun x => f (forms.map (·.eval x)) = some (x i) := by
    refine (imposes_of_addExtremum ((steady_auxiliaryInt _ _ _).wellFormed hp h₁)
      (Affine.below_ofColumn.2 hcolumn) (fun form h => (hforms form h).mono hgrows.size_le)
      h₂).congr fun x _ => ?_
    rw [hf.imposed_iff, Affine.eval_ofColumn]
  refine ⟨Nat.lt_of_lt_of_le hcolumn himposes.grows.size_le,
    extends_of_auxiliaryInt hp h₁ himposes fun x hx _ => ?_⟩
  obtain ⟨k, hk⟩ := Option.isSome_iff_exists.1
    (hf.isSome (forms.map (·.eval x)) (by simpa using hne))
  obtain ⟨form, hform, rfl⟩ := List.mem_map.1 ((hf.eq_some_iff _ _).1 hk).1
  obtain ⟨hlower, hupper⟩ := mem_of_hull hhull hx form hform
  refine ⟨form.eval x, hlower, hupper, fun y hxy _ hy => ?_⟩
  rw [hy, ← hk, List.map_congr_left fun e he => (hforms e he).eval_congr hxy]

theorem picksExtremum_pick (kind : GlobalKind) : PicksExtremum kind.pick kind.bounding := by
  unfold GlobalKind.bounding
  by_cases hkind : kind = .min
  · rw [if_pos hkind, show kind.pick = List.min? from funext fun vs => if_pos hkind]
    exact picksExtremum_min
  · rw [if_neg hkind, show kind.pick = List.max? from funext fun vs => if_neg hkind]
    exact picksExtremum_max

theorem apply_eq_pick (hkind : kind = .min ∨ kind = .max) (vs : List Int) :
    kind.apply (vs.map some) = kind.pick vs := by
  rcases hkind with rfl | rfl
  · rw [GlobalKind.apply, mapM_id_map_some]
    rfl
  · rw [GlobalKind.apply, mapM_id_map_some]
    rfl

/-- The new column, its bounds and what is imposed on it. -/
theorem extremum_eq_ok (h : extremum kind args forms t = .ok n t') :
    ∃ lower upper i q₁ q₂ u, hull t.program forms = .ok (some (lower, upper)) ∧
      auxiliaryInt kind.name lower upper t.program = .ok i q₁ ∧
      addExtremum (.ofColumn i) forms kind.bounding q₁ = .ok u q₂ ∧
      n = .column i ∧ t' = { t with program := q₂ } := by
  unfold extremum at h
  obtain ⟨b, t₁, h₁, h⟩ := bind_eq_ok.1 h
  obtain ⟨hhull, rfl⟩ := hull_eq_ok h₁
  cases b with
  | none => cases throw_eq_ok.1 h
  | some b =>
    obtain ⟨lower, upper⟩ := b
    obtain ⟨i, t₁, h₁, h⟩ := bind_eq_ok.1 h
    obtain ⟨q₁, hq₁, rfl⟩ := build_eq_ok.1 h₁
    unfold GlobalKind.bounding
    by_cases hkind : kind = .min
    · rw [if_pos hkind] at h ⊢
      obtain ⟨u, t₂, h₂, h⟩ := bind_eq_ok.1 h
      obtain ⟨q₂, hq₂, rfl⟩ := build_eq_ok.1 h₂
      obtain ⟨rfl, rfl⟩ := pure_eq_ok.1 h
      exact ⟨lower, upper, i, q₁, q₂, u, hhull, hq₁, hq₂, rfl, rfl⟩
    · rw [if_neg hkind] at h ⊢
      obtain ⟨u, t₂, h₂, h⟩ := bind_eq_ok.1 h
      obtain ⟨q₂, hq₂, rfl⟩ := build_eq_ok.1 h₂
      obtain ⟨rfl, rfl⟩ := pure_eq_ok.1 h
      exact ⟨lower, upper, i, q₁, q₂, u, hhull, hq₁, hq₂, rfl, rfl⟩

theorem defines_extremum (hp : t.program.WellFormed) (hkind : kind = .min ∨ kind = .max)
    (hforms : ∀ form ∈ forms, form.Below t.program.columns.size)
    (h : extremum kind args forms t = .ok n t') :
    n.Over t'.program ∧ t.Defines t' fun _ x => ∃ k,
      kind.apply ((forms.map (·.eval x)).map some) = some k ∧ n.value? x = some k := by
  obtain ⟨lower, upper, i, q₁, q₂, u, hhull, h₁, h₂, rfl, rfl⟩ := extremum_eq_ok h
  obtain ⟨hlt, hdefines⟩ := defines_pick (picksExtremum_pick kind) hp hforms hhull h₁ h₂
  refine ⟨.column hlt, (Draft.Defines.of_program hdefines).weaken fun x _ hpick => ?_⟩
  exact ⟨x i, (apply_eq_pick hkind _).trans hpick, rfl⟩

end Translate

end Linearization
