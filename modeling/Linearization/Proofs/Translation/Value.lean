import Linearization.Proofs.Translation.Operations
import Linearization.Translation.Constraint

/-!
# Exactness of lowered values

Lowering a flat expression whose variables are registered leaves the layout alone, loses no solution
and gives a value that denotes the expression in every solution (`exact_lower`). The induction is on
the expression; what the next level of decomposition does is an assumption, which `exact_within`
discharges by induction on the levels.
-/

namespace Linearization

namespace Translate

open Ilp Literal Lowering

variable {t t' : Draft} {e value : Expr} {es : List Expr} {g : Global} {n : Lowered} {v : Var}
  {image : Image} {forms hits : List Affine} {l : Literal} {ls : List Literal} {limit : Nat}
  {deeper : Option Deeper} {σ : Valuation} {x : Assignment}

/-! ## Variables -/

/-- The image of a variable has the value of the variable. -/
theorem over_of_image (h : t.Sound) (hv : t.layout.get? v = some image) :
    image.toLowered.Over t.program ∧
      ∀ x, image.toLowered.value? x = some (t.layout.valuation x v.toVarKey) := by
  obtain ⟨himage, c, hc, hl, hu⟩ := h.images v image hv
  have hvalue : ∀ x, t.layout.valuation x v.toVarKey = x image.column := fun x =>
    Layout.valuation_of_get? hv
  unfold Var.imageAt at himage
  split at himage
  · rename_i hbool
    have hdomain : v.domain = .bool := beq_iff_eq.1 hbool
    rw [hdomain] at hl hu
    rw [himage] at hc ⊢
    refine ⟨.literal ⟨c, hc, hl.ge, hu.le⟩, fun x => ?_⟩
    rw [hvalue]
    exact congrArg some (by rw [eval_toAffine]; rfl)
  · rw [himage]
    exact ⟨.column (h.column_lt hv), fun x => by rw [hvalue]; rfl⟩

/-! ## Counting -/

/-- Whether an argument equals a value, as an integer. -/
def hitOf (value argument : Option Int) : Option Int := do
  return ofTruth ((← argument) = (← value))

theorem countOf_eq (arguments : List (Option Int)) (value : Option Int) :
    countOf arguments value = (arguments.mapM (hitOf value)).map List.sum := by
  show (arguments.mapM (hitOf value) >>= fun hits => pure hits.sum) = _
  cases arguments.mapM (hitOf value) <;> rfl

theorem equalities_cons_eq_ok
    (h : equalities limit deeper value (lower limit deeper value) (e :: es) t = .ok hits t') :
    ∃ a b hit rest t₁ t₂ t₃, affine limit deeper e t = .ok a t₁ ∧
      affine limit deeper value t₁ = .ok b t₂ ∧
      build (e.equals value) (affineOf (.relation ⟨a, .eq, b⟩)) t₂ = .ok hit t₃ ∧
      equalities limit deeper value (lower limit deeper value) es t₃ = .ok rest t' ∧
      hits = hit :: rest := by
  simp only [equalities, bind_eq_ok, pure_eq_ok] at h
  obtain ⟨m, s₁, h₁, a, t₁, h₂, m', s₂, h₃, b, t₂, h₄, hit, t₃, h₅, rest, t₄, h₆, rfl, rfl⟩ := h
  exact ⟨a, b, hit, rest, t₁, t₂, t₃, bind_eq_ok.2 ⟨m, s₁, h₁, h₂⟩,
    bind_eq_ok.2 ⟨m', s₂, h₃, h₄⟩, h₅, h₆, rfl⟩

theorem defines_equalities (hexact : ∀ e ∈ es, ExactFor (lower limit deeper) e)
    (hvalue : ExactFor (lower limit deeper) value) (hwf : t.WellFormed)
    (hes : ∀ e ∈ es, t.layout.Covers e) (hv : t.layout.Covers value)
    (h : equalities limit deeper value (lower limit deeper value) es t = .ok hits t') :
    (∀ hit ∈ hits, hit.Below t'.program.columns.size) ∧ t.Defines t' fun σ x =>
      (valuesOf σ es).mapM (hitOf (value.value? σ)) = some (hits.map (·.eval x)) := by
  induction es generalizing t hits with
  | nil =>
    obtain ⟨rfl, rfl⟩ := pure_eq_ok.1 h
    exact ⟨List.forall_mem_nil _, .refl hwf.program fun x _ => rfl⟩
  | cons e es ih =>
    rw [List.forall_mem_cons] at hexact hes
    obtain ⟨a, b, hit, rest, t₁, t₂, t₃, h₁, h₂, h₃, h₄, rfl⟩ := equalities_cons_eq_ok h
    obtain ⟨ha, hd₁⟩ := defines_affine hexact.1 hwf hes.1 h₁
    have hwf₁ := hd₁.wellFormed hwf
    obtain ⟨hb, hd₂⟩ := defines_affine hvalue hwf₁ (hd₁.covers hv) h₂
    have hwf₂ := hd₂.wellFormed hwf₁
    obtain ⟨hhit, hd₃⟩ := defines_of_affineOf hwf₂.program (.relation ⟨ha.mono hd₂.size_le, hb⟩) h₃
    have hd := (hd₁.trans hd₂).trans hd₃
    obtain ⟨hrest, hd₄⟩ := ih hexact.2 (hd₃.wellFormed hwf₂) (fun e he => hd.covers (hes.2 e he))
      (hd.covers hv) h₄
    refine ⟨List.forall_mem_cons.2 ⟨hhit.mono hd₄.size_le, hrest⟩,
      (hd.trans hd₄).weaken fun x _ hx => ?_⟩
    obtain ⟨⟨⟨hea, heb⟩, heq⟩, hmap⟩ := hx
    have hhead : hitOf (value.value? (t.layout.valuation x)) (e.value? (t.layout.valuation x)) =
        some (hit.eval x) := by
      rw [hea, heb, ← heq]
      by_cases hab : a.eval x = b.eval x <;>
        simp [hitOf, ofTruth, Lowered.value?, Relation.Holds, Comparison.Holds, hab]
    rw [valuesOf, List.mapM_cons, hhead, hmap]
    rfl

/-! ## Globals -/

/-- What the next level of decomposition lowers is exact. -/
def ExactLevel (level : Deeper) : Prop := ∀ e, e.Flat → ExactFor level.lower e

theorem expand_of_flat {level : Deeper} {cs : List Expr} (hflat : (Expr.global g).Flat)
    (hg : t.layout.Covers (.global g)) (h : expand limit deeper g t = .ok (level, cs) t') :
    deeper = some level ∧ t' = t.logged g ∧ ∃ d, g.decompose t.program.columns.size = some d ∧
      cs = d.constraints ∧ (∀ c ∈ cs, c.Flat) ∧ ∀ c ∈ cs, t.layout.Covers c := by
  obtain ⟨hdeeper, d, hd, rfl, rfl⟩ := expand_eq_ok h
  obtain ⟨hnew, hmembers⟩ := hflat.decompose hd
  have hcovers : ∀ c ∈ d.constraints, t.layout.Covers c := by
    intro c hc v hv
    rcases mem_occurrences_of_decompose hd c hc v hv with hv | hv
    · exact hg v hv
    · rw [hnew] at hv
      cases hv
  refine ⟨hdeeper, ?_, d, hd, rfl, hmembers, hcovers⟩
  rw [hnew, List.nil_append]
  refine congrArg (Draft.logged · g) (Draft.withVars_of_has fun v hv => ?_)
  obtain ⟨c, hc, hv⟩ := mem_occurrencesInAll.1 (mem_varsOf hv)
  exact hcovers c hc v hv

theorem defines_conjunction {level : Deeper} {cs : List Expr} (hlevel : ExactLevel level)
    (hflat : ∀ c ∈ cs, c.Flat) (hwf : t.WellFormed) (hcs : ∀ c ∈ cs, t.layout.Covers c)
    (h : nested (do
      let value ← level.lower (Expr.all cs)
      build (Expr.all cs) (literalOf value)) t = .ok l t') :
    t'.program.IsTruth l ∧ t.Defines t' fun σ x => (∀ c ∈ cs, (c.value? σ).isSome) ∧
      l.toAffine.eval x = ofTruth (cs.all (Expr.isTrue σ)) := by
  obtain ⟨s, hs, rfl⟩ := nested_eq_ok h
  obtain ⟨m, t₁, h₁, h₂⟩ := bind_eq_ok.1 hs
  have hcovers : t.layout.Covers (Expr.all cs) := fun v hv => by
    obtain ⟨c, hc, hv⟩ := Expr.mem_occurrences_all hv
    exact hcs c hc v hv
  have hwf' := hwf.atDepth (t.depth + 1) (max t.deepest (t.depth + 1))
  obtain ⟨hover, hd₁⟩ := hlevel _ (Expr.flat_all hflat) hwf' hcovers h₁
  obtain ⟨htruth, hd₂⟩ := defines_of_literalOf (hd₁.wellFormed hwf').program hover h₂
  have hd := hd₁.trans hd₂
  refine ⟨htruth, ⟨hd.layout, hd.defines.weaken fun x hx hboth => ?_⟩⟩
  obtain ⟨hdenotes, k, hk, hl⟩ := hboth
  obtain ⟨hsome, rfl⟩ := value?_all (hdenotes.value?_eq.trans hk)
  refine ⟨hsome, ?_⟩
  rw [htruth.eval_eq_ofTruth hx]
  refine if_congr (hl.trans ?_) rfl rfl
  rw [← decide_eq_true_iff (p := _ ≠ _), ofTruth_ne_zero]

/-- A flat boolean global is reified exactly. -/
theorem exact_reifyGlobal (hlevel : ∀ level, deeper = some level → ExactLevel level)
    (hflat : (Expr.global g).Flat) (hwf : t.WellFormed) (hg : t.layout.Covers (.global g))
    (h : reifyGlobal limit deeper g t = .ok n t') :
    n.Over t'.program ∧ t.Defines t' fun σ x => (Expr.global g).Denotes σ x n := by
  obtain ⟨⟨level, cs⟩, t₁, h₁, h⟩ := bind_eq_ok.1 h
  obtain ⟨hdeeper, rfl, d, hd, rfl, hmembers, hcovers⟩ := expand_of_flat hflat hg h₁
  obtain ⟨l, t₂, h₂, h⟩ := bind_eq_ok.1 h
  obtain ⟨rfl, rfl⟩ := pure_eq_ok.1 h
  obtain ⟨htruth, hd₂⟩ := defines_conjunction (hlevel level hdeeper) hmembers (hwf.logged g)
    hcovers h₂
  have hdenotes : (t.logged g).Defines t₂ fun σ x => (Expr.global g).Denotes σ x (.literal l) :=
    hd₂.weaken fun x _ hx => .value (value?_of_decompose hflat hd hx.1) (congrArg some hx.2)
  exact ⟨.literal htruth, hdenotes.layout, hdenotes.defines⟩

theorem exact_extremum {kind : GlobalKind} (hkind : kind = .min ∨ kind = .max)
    (hexact : ∀ e ∈ es, ExactFor (lower limit deeper) e) (hwf : t.WellFormed)
    (hes : ∀ e ∈ es, t.layout.Covers e)
    (h : (do extremum kind es (← affines limit deeper es)) t = .ok n t') :
    n.Over t'.program ∧ t.Defines t' fun σ x => (Expr.global (.plain kind es)).Denotes σ x n := by
  obtain ⟨forms, t₁, h₁, h₂⟩ := bind_eq_ok.1 h
  obtain ⟨hforms, hd₁⟩ := defines_affines hexact hwf hes h₁
  obtain ⟨hover, hd₂⟩ := defines_extremum (hd₁.wellFormed hwf).program hkind hforms h₂
  refine ⟨hover, (hd₁.trans hd₂).weaken fun x _ hx => ?_⟩
  obtain ⟨hvalues, k, hk, hn⟩ := hx
  refine .value ?_ hn
  rw [Expr.value?, Global.value?, hvalues, hk]

/-- A count is the sum of the equalities. -/
theorem exact_count (hexact : ∀ e ∈ es, ExactFor (lower limit deeper) e)
    (hvalue : ExactFor (lower limit deeper) value) (hwf : t.WellFormed)
    (hes : ∀ e ∈ es, t.layout.Covers e) (hv : t.layout.Covers value)
    (h : lowerGlobal limit deeper (.count es value) t = .ok n t') :
    n.Over t'.program ∧ t.Defines t' fun σ x => (Expr.global (.count es value)).Denotes σ x n := by
  obtain ⟨hits, t₁, h₁, h⟩ := bind_eq_ok.1 h
  obtain ⟨hhits, hd₁⟩ := defines_equalities hexact hvalue hwf hes hv h₁
  obtain ⟨c, t₂, h₂, h⟩ := bind_eq_ok.1 h
  obtain ⟨rfl, rfl⟩ := pure_eq_ok.1 h
  obtain ⟨hc, hd₂⟩ := defines_of_computes h₂ fun q hq =>
    computes_of_foldlM_plus (hd₁.wellFormed hwf).program hhits hq
  refine ⟨Lowered.over_ofAffine hc, (hd₁.trans hd₂).weaken fun x _ hx => ?_⟩
  refine .value (k := c.eval x) ?_ (Lowered.value?_ofAffine x c)
  rw [Expr.value?, Global.value?, countOf_eq, hx.1, hx.2]
  rfl

theorem exact_lowerGlobal (hlevel : ∀ level, deeper = some level → ExactLevel level)
    (hflat : (Expr.global g).Flat)
    (iha : ∀ e ∈ g.args, e.Flat → ExactFor (lower limit deeper) e) (hwf : t.WellFormed)
    (hg : t.layout.Covers (.global g)) (h : lowerGlobal limit deeper g t = .ok n t') :
    n.Over t'.program ∧ t.Defines t' fun σ x => (Expr.global g).Denotes σ x n := by
  have hchild : ∀ e ∈ g.args, t.layout.Covers e := fun e he => hg.child he
  cases g with
  | plain kind args =>
    have hextremum : kind = .min ∨ kind = .max →
        (do extremum kind args (← affines limit deeper args)) t = .ok n t' →
        n.Over t'.program ∧
          t.Defines t' fun σ x => (Expr.global (.plain kind args)).Denotes σ x n := by
      intro hkind hrun
      cases hflat with
      | plain _ hargs =>
        exact exact_extremum hkind (fun e he => iha e he (hargs e he)) hwf hchild hrun
    cases kind with
    | min => exact hextremum (.inl rfl) h
    | max => exact hextremum (.inr rfl) h
    | _ => exact exact_reifyGlobal hlevel hflat hwf hg h
  | count args value =>
    cases hflat with
    | count hargs hvalue =>
      have hlast : value ∈ args ++ [value] :=
        List.mem_append_right _ (List.mem_singleton_self value)
      exact exact_count (fun e he => iha e (List.mem_append_left _ he) (hargs e he))
        (iha value hlast hvalue) hwf (fun e he => hchild e (List.mem_append_left _ he))
        (hchild value hlast) h
  | cardinality args values counts => exact exact_reifyGlobal hlevel hflat hwf hg h
  | named name args => exact exact_reifyGlobal hlevel hflat hwf hg h
  | defined name args constraints newVars => exact exact_reifyGlobal hlevel hflat hwf hg h

/-! ## Expressions -/

theorem checkArity_eq_ok {o : Operator} {u : Unit} (h : checkArity o es t = .ok u t') :
    t = t' ∧ ∀ k, o.arity = some k → es.length = k := by
  unfold checkArity at h
  cases ho : o.arity with
  | none =>
    rw [ho] at h
    exact ⟨(pure_eq_ok.1 h).2, nofun⟩
  | some k =>
    rw [ho] at h
    dsimp only at h
    split at h
    · rename_i hlength
      refine ⟨(pure_eq_ok.1 h).2, fun m hm => ?_⟩
      cases hm
      exact hlength
    · cases throw_eq_ok.1 h

theorem forall₂_isTruthOf (h : List.Forall₂ (IsTruthOf σ x) es ls) :
    (∀ e ∈ es, (e.value? σ).isSome) ∧
      ls.map (fun l => decide (l.Holds x)) = es.map (Expr.isTrue σ) := by
  induction h with
  | nil => exact ⟨List.forall_mem_nil _, rfl⟩
  | cons hhead _ ih =>
    refine ⟨List.forall_mem_cons.2 ⟨hhead.1, ih.1⟩, ?_⟩
    rw [List.map_cons, List.map_cons, hhead.2, ih.2]

theorem exact_connective {o : Operator} (ho : o.IsConnective)
    (hexact : ∀ e ∈ es, ExactFor (lower limit deeper) e) (hwf : t.WellFormed)
    (hes : ∀ e ∈ es, t.layout.Covers e) (h : lower limit deeper (.op o es) t = .ok n t') :
    n.Over t'.program ∧ t.Defines t' fun σ x => (Expr.op o es).Denotes σ x n := by
  rw [lower_connective ho] at h
  obtain ⟨_, _, h₁, h⟩ := bind_eq_ok.1 h
  obtain ⟨rfl, harity⟩ := checkArity_eq_ok h₁
  obtain ⟨ls, t₂, h₂, h⟩ := bind_eq_ok.1 h
  obtain ⟨hls, hd₂⟩ := defines_literals hexact hwf hes h₂
  obtain ⟨l, t₃, h₃, h⟩ := bind_eq_ok.1 h
  obtain ⟨rfl, rfl⟩ := pure_eq_ok.1 h
  obtain ⟨q, hq, rfl⟩ := build_eq_ok.1 h₃
  have htwo : o = .implies → es.length = 2 := fun heq => harity 2 (by rw [heq]; rfl)
  have hreifies := reifies_of_connective (hd₂.wellFormed hwf).program ho
    (fun heq => (length_of_literals h₂).trans (htwo heq)) hls hq
  refine ⟨.literal hreifies.truth,
    (hd₂.trans (.of_program hreifies.defines)).weaken fun x hx hboth => ?_⟩
  obtain ⟨hsome, htruth⟩ := forall₂_isTruthOf hboth.1
  refine .value (value?_connective ho htwo hsome) (congrArg some ?_)
  rw [hreifies.eval hx, htruth]
  rfl

theorem exact_arithmetic {o : Operator} (ho : o.IsArithmetic)
    (hexact : ∀ e ∈ es, ExactFor (lower limit deeper) e) (hwf : t.WellFormed)
    (hes : ∀ e ∈ es, t.layout.Covers e) (h : lower limit deeper (.op o es) t = .ok n t') :
    n.Over t'.program ∧ t.Defines t' fun σ x => (Expr.op o es).Denotes σ x n := by
  rw [lower_arithmetic ho] at h
  obtain ⟨_, _, h₁, h⟩ := bind_eq_ok.1 h
  obtain ⟨rfl, harity⟩ := checkArity_eq_ok h₁
  obtain ⟨forms, t₂, h₂, h⟩ := bind_eq_ok.1 h
  obtain ⟨hforms, hd₂⟩ := defines_affines hexact hwf hes h₂
  obtain ⟨c, t₃, h₃, h⟩ := bind_eq_ok.1 h
  obtain ⟨rfl, rfl⟩ := pure_eq_ok.1 h
  obtain ⟨hc, hd₃⟩ := defines_arithmetic (hd₂.wellFormed hwf).program ho
    (fun k hk => (length_of_affines h₂).trans (harity k hk)) hforms h₃
  refine ⟨Lowered.over_ofAffine hc, (hd₂.trans hd₃).weaken fun x _ hx => ?_⟩
  refine .value ?_ (Lowered.value?_ofAffine x c)
  rw [Expr.value?, hx.1, mapM_id_map_some]
  exact hx.2

theorem exact_compare {c : Comparison} {lhs rhs : Expr}
    (hl : ExactFor (lower limit deeper) lhs) (hr : ExactFor (lower limit deeper) rhs) :
    ExactFor (lower limit deeper) (.compare c lhs rhs) := by
  intro t t' n hwf he h
  simp only [lower, bind_eq_ok, pure_eq_ok] at h
  obtain ⟨m, s₁, h₁, a, t₁, h₂, m', s₂, h₃, b, t₂, h₄, rfl, rfl⟩ := h
  obtain ⟨ha, hd₁⟩ := defines_affine hl hwf (he.child (by simp [Expr.children]))
    (bind_eq_ok.2 ⟨m, s₁, h₁, h₂⟩)
  obtain ⟨hb, hd₂⟩ := defines_affine hr (hd₁.wellFormed hwf)
    (hd₁.covers (he.child (by simp [Expr.children]))) (bind_eq_ok.2 ⟨m', s₂, h₃, h₄⟩)
  refine ⟨.relation ⟨ha.mono hd₂.size_le, hb⟩, (hd₁.trans hd₂).weaken fun x _ hx => ?_⟩
  refine .value (k := ofTruth (c.Holds (a.eval x) (b.eval x))) ?_ ?_
  · rw [Expr.value?, hx.1, hx.2]
    rfl
  · by_cases hc : c.Holds (a.eval x) (b.eval x) <;>
      simp [Lowered.value?, Relation.Holds, ofTruth, hc]

theorem exact_element {index : Expr} (ha : ∀ e ∈ es, ExactFor (lower limit deeper) e)
    (hi : ExactFor (lower limit deeper) index) :
    ExactFor (lower limit deeper) (.element es index) := by
  intro t t' n hwf he h
  simp only [lower, bind_eq_ok] at h
  obtain ⟨m, s₁, h₁, i, t₁, h₂, items, t₂, h₃, h₄⟩ := h
  obtain ⟨hindex, hd₁⟩ := defines_affine hi hwf (he.child (by simp [Expr.children]))
    (bind_eq_ok.2 ⟨m, s₁, h₁, h₂⟩)
  have hwf₁ := hd₁.wellFormed hwf
  obtain ⟨hitems, hd₂⟩ := defines_affines ha hwf₁
    (fun e he' => hd₁.covers (he.child (List.mem_append_left _ he'))) h₃
  obtain ⟨hover, hd₃⟩ :=
    defines_selectItem (hd₂.wellFormed hwf₁).program (hindex.mono hd₂.size_le) hitems h₄
  refine ⟨hover, ((hd₁.trans hd₂).trans hd₃).weaken fun x _ hx => ?_⟩
  obtain ⟨⟨hindex, hvalues⟩, item, hitem, hn⟩ := hx
  refine .value ?_ hn
  rw [value?_element hvalues hindex, itemAt?_map, hitem]
  rfl

/-- Lowering a flat expression is exact. -/
theorem exact_lower (hlevel : ∀ level, deeper = some level → ExactLevel level) (e : Expr) :
    e.Flat → ExactFor (lower limit deeper) e := by
  induction e using Expr.induction with
  | const c =>
    intro _ t t' n hwf _ h
    obtain ⟨rfl, rfl⟩ := pure_eq_ok.1 h
    exact ⟨.const c, .refl hwf.program fun x _ => .value rfl rfl⟩
  | var v =>
    intro _ t t' n hwf _ h
    obtain ⟨image, t₁, h₁, h⟩ := bind_eq_ok.1 h
    obtain ⟨hv, rfl⟩ := imageOf_eq_ok h₁
    obtain ⟨rfl, rfl⟩ := pure_eq_ok.1 h
    obtain ⟨hover, hvalue⟩ := over_of_image hwf.sound hv
    exact ⟨hover, .refl hwf.program fun x _ => .value rfl (hvalue x)⟩
  | complement v =>
    intro _ t t' n hwf _ h
    obtain ⟨image, t₁, h₁, h⟩ := bind_eq_ok.1 h
    obtain ⟨hv, rfl⟩ := imageOf_eq_ok h₁
    obtain ⟨hover, hvalue⟩ := over_of_image hwf.sound hv
    cases image with
    | int i => cases throw_eq_ok.1 h
    | bool l =>
      obtain ⟨rfl, rfl⟩ := pure_eq_ok.1 h
      cases hover with
      | literal hl =>
        refine ⟨.literal (isTruth_negate.2 hl), .refl hwf.program fun x _ => .value rfl ?_⟩
        rw [Lowered.value?, eval_toAffine_negate, Option.some.inj (hvalue x)]
  | list es ih =>
    intro hflat t t' n hwf he h
    cases hflat with
    | list hes =>
      obtain ⟨ns, t₁, h₁, h⟩ := bind_eq_ok.1 h
      obtain ⟨rfl, rfl⟩ := pure_eq_ok.1 h
      obtain ⟨hover, hd₁⟩ := defines_lowerAll (fun e he => ih e he (hes e he)) hwf
        (fun e he' => he.child he') h₁
      exact ⟨.sequence hover, hd₁.weaken fun x _ hx => .list hx⟩
  | op o args ih =>
    intro hflat t t' n hwf he h
    cases hflat with
    | op hargs =>
      have hexact : ∀ e ∈ args, ExactFor (lower limit deeper) e := fun e he => ih e he (hargs e he)
      have hcovers : ∀ e ∈ args, t.layout.Covers e := fun e he' => he.child he'
      rcases o.eq_xor_or with rfl | ho | ho
      · obtain ⟨_, _, _, h⟩ := bind_eq_ok.1 h
        cases throw_eq_ok.1 h
      · exact exact_connective ho hexact hwf hcovers h
      · exact exact_arithmetic ho hexact hwf hcovers h
  | compare c lhs rhs ihl ihr =>
    intro hflat
    cases hflat with
    | compare hl hr => exact exact_compare (ihl hl) (ihr hr)
  | element array index iha ihi =>
    intro hflat
    cases hflat with
    | element ha hi => exact exact_element (fun e he => iha e he (ha e he)) (ihi hi)
  | global g iha _ =>
    exact fun hflat t t' n hwf he h => exact_lowerGlobal hlevel hflat iha hwf he h

theorem exactLevel_below (limit levels : Nat) :
    ∀ level, below limit levels = some level → ExactLevel level :=
  forall_below (fun _ hlevel e he => exact_lower hlevel e he) levels

/-- Lowering a flat expression is exact at every level of decomposition. -/
theorem exact_lowerWithin (limit levels : Nat) {e : Expr} (he : e.Flat) :
    ExactFor (lowerWithin limit levels) e := by
  rw [lowerWithin_eq]
  exact exact_lower (exactLevel_below limit levels) e he

end Translate

end Linearization
