import Linearization.Proofs.Translation.Unfolds
import Linearization.Proofs.Translation.Value

/-!
# Outcomes of lowered values

Lowering an expression gives a value that in every solution is one of the outcomes of the expression,
and each of them in some (`offers_lower`). No shape is asked of the expression. The induction is the
one of `exact_lower`.
-/

namespace Linearization

namespace Lowered

variable {n : Lowered} {x y : Assignment} {k : Int} {p : Ilp}

/-- What the value comes to under an assignment. -/
def outcome (x : Assignment) : Lowered → Expr.Outcome
  | sequence ns => .sequence (ns.map (value? x))
  | n => .number ((n.value? x).getD 0)

theorem value?_outcome (n : Lowered) (x : Assignment) : (n.outcome x).value? = n.value? x := by
  cases n <;> rfl

theorem items_outcome (n : Lowered) (x : Assignment) :
    (n.outcome x).items = n.items.map (value? x) := by
  cases n <;> rfl

theorem outcome_eq_number : n.outcome x = .number k ↔ n.value? x = some k := by
  rw [← value?_outcome, Expr.Outcome.value?_eq_some]

theorem Over.outcome_congr (h : n.Over p) (hxy : AgreeBelow p.columns.size x y) :
    n.outcome x = n.outcome y := by
  cases n with
  | sequence ns =>
    refine congrArg Expr.Outcome.sequence (List.map_congr_left fun m hm => ?_)
    exact (h.items m hm).value?_congr hxy
  | _ => exact congrArg (fun v => Expr.Outcome.number (v.getD 0)) (h.value?_congr hxy)

end Lowered

namespace Translate

open Ilp Literal Lowering

variable {t t' : Draft} {e value : Expr} {es : List Expr} {g : Global} {n : Lowered} {v : Var}
  {forms hits : List Affine} {form : Affine} {l : Literal} {ls : List Literal} {limit : Nat}
  {deeper : Option Deeper} {σ : Valuation} {P : VarKey → Prop}

/-- Lowering the expression offers exactly its outcomes. -/
def OffersFor (f : Expr → Translate Lowered) (e : Expr) : Prop :=
  ∀ ⦃t t' : Draft⦄ ⦃n : Lowered⦄ ⦃P : VarKey → Prop⦄, t.WellFormed → t.Scopes P → e.Among P →
    f e t = .ok n t' →
    n.Over t'.program ∧ t.Offers t' P (fun σ o => e.Yields σ o) fun x => n.outcome x

/-! ## Forms and literals -/

theorem offers_form {f : Expr → Translate Lowered} (hoffers : OffersFor f e) (hwf : t.WellFormed)
    (hP : t.Scopes P) (he : e.Among P)
    (h : (f e >>= fun v => build e (Lowering.affineOf v)) t = .ok form t') :
    form.Below t'.program.columns.size ∧
      t.Offers t' P (fun σ k => e.Yields σ (.number k)) fun x => form.eval x := by
  obtain ⟨n, t₁, h₁, h₂⟩ := bind_eq_ok.1 h
  obtain ⟨hover, ho⟩ := hoffers hwf hP he h₁
  obtain ⟨hbelow, hd⟩ := defines_of_affineOf ho.wellFormed.program hover h₂
  refine ⟨hbelow, ho.defines (R := fun o k => o = .number k) (hd.weaken fun x _ hx => ?_)
    (fun x y hxy => hbelow.eval_congr hxy) ?_ ?_⟩
  · exact Lowered.outcome_eq_number.2 hx
  · rintro _ k k' rfl heq
    exact Expr.Outcome.number.inj heq
  · simp

theorem offers_affine (hoffers : OffersFor (lower limit deeper) e) (hwf : t.WellFormed)
    (hP : t.Scopes P) (he : e.Among P) (h : affine limit deeper e t = .ok form t') :
    form.Below t'.program.columns.size ∧
      t.Offers t' P (fun σ k => e.Yields σ (.number k)) fun x => form.eval x :=
  offers_form hoffers hwf hP he h

/-- The truth of a value of the expression. -/
def CanBe (σ : Valuation) (e : Expr) (b : Bool) : Prop :=
  ∃ k, e.Yields σ (.number k) ∧ decide (k ≠ 0) = b

theorem offers_literalOf {f : Expr → Translate Lowered} (hoffers : OffersFor f e)
    (hwf : t.WellFormed) (hP : t.Scopes P) (he : e.Among P)
    (h : (do build e (literalOf (← f e))) t = .ok l t') :
    t'.program.IsTruth l ∧
      t.Offers t' P (fun σ b => CanBe σ e b) fun x => decide (l.Holds x) := by
  obtain ⟨n, t₁, h₁, h₂⟩ := bind_eq_ok.1 h
  obtain ⟨hover, ho⟩ := hoffers hwf hP he h₁
  obtain ⟨htruth, hd⟩ := defines_of_literalOf ho.wellFormed.program hover h₂
  refine ⟨htruth, ho.defines (R := fun o b => ∃ k, o = .number k ∧ decide (k ≠ 0) = b)
    (hd.weaken fun x _ hx => ?_) (fun x y hxy => ?_) ?_ ?_⟩
  · obtain ⟨k, hk, hl⟩ := hx
    exact ⟨k, Lowered.outcome_eq_number.2 hk, decide_eq_decide.2 hl.symm⟩
  · exact decide_eq_decide.2 (holds_congr htruth.column_lt hxy)
  · rintro _ b b' ⟨k, rfl, rfl⟩ ⟨k', heq, rfl⟩
    rw [Expr.Outcome.number.inj heq]
  · intro σ b
    constructor
    · rintro ⟨k, hk, hb⟩
      exact ⟨_, hk, k, rfl, hb⟩
    · rintro ⟨_, hk, k, rfl, hb⟩
      exact ⟨k, hk, hb⟩

theorem offers_literal (hoffers : OffersFor (lower limit deeper) e) (hwf : t.WellFormed)
    (hP : t.Scopes P) (he : e.Among P) (h : literal limit deeper e t = .ok l t') :
    t'.program.IsTruth l ∧ t.Offers t' P (fun σ b => CanBe σ e b) fun x => decide (l.Holds x) :=
  offers_literalOf hoffers hwf hP he h

/-! ## Several expressions -/

theorem offers_lowerAll {ns : List Lowered} (hoffers : ∀ e ∈ es, OffersFor (lower limit deeper) e)
    (hwf : t.WellFormed) (hP : t.Scopes P) (hes : ∀ e ∈ es, e.Among P)
    (h : lowerAll limit deeper es t = .ok ns t') :
    (∀ n ∈ ns, n.Over t'.program) ∧
      t.Offers t' P (fun σ ks => (Expr.list es).Yields σ (.sequence ks)) fun x =>
        ns.map (Lowered.value? x) := by
  induction es generalizing t ns with
  | nil =>
    obtain ⟨rfl, rfl⟩ := pure_eq_ok.1 h
    refine ⟨List.forall_mem_nil _, .refl hwf (fun _ _ _ => rfl) fun σ x ks _ _ => ?_⟩
    constructor
    · intro hks
      cases hks
      rfl
    · rintro rfl
      exact .nil
  | cons e es ih =>
    rw [List.forall_mem_cons] at hoffers hes
    simp only [lowerAll, bind_eq_ok, pure_eq_ok] at h
    obtain ⟨n, t₁, h₁, ns, t₂, h₂, rfl, rfl⟩ := h
    obtain ⟨hover, ho₁⟩ := hoffers.1 hwf hP hes.1 h₁
    obtain ⟨hovers, ho₂⟩ := ih hoffers.2 ho₁.wellFormed (hP.mono ho₁.grows) hes.2 h₂
    refine ⟨List.forall_mem_cons.2 ⟨hover.mono ho₂.grows.program, hovers⟩, ?_⟩
    have hlist := ((ho₁.trans ho₂).map fun c => c.1.value? :: c.2).congr
      (Z := fun σ ks => (Expr.list (e :: es)).Yields σ (.sequence ks)) fun σ ks => ?_
    · simpa only [Lowered.value?_outcome, List.map_cons] using hlist
    · constructor
      · rintro ⟨⟨o, ks⟩, ⟨he, hes⟩, rfl⟩
        exact .cons he hes
      · intro hks
        cases hks with
        | cons he hes => exact ⟨(_, _), ⟨he, hes⟩, rfl⟩

theorem offers_cons {t'' : Draft} {f : Assignment → Int} {g : Assignment → List Int}
    (h : t.Offers t' P (fun σ k => e.Yields σ (.number k)) f)
    (h' : t'.Offers t'' P (fun σ ks => Expr.YieldsAll σ es ks) g) :
    t.Offers t'' P (fun σ ks => Expr.YieldsAll σ (e :: es) ks) fun x => f x :: g x := by
  refine ((h.trans h').map fun c => c.1 :: c.2).congr fun σ ks => ?_
  rw [Expr.yieldsAll_cons]
  constructor
  · rintro ⟨⟨k, ks⟩, ⟨hk, hks⟩, rfl⟩
    exact ⟨k, ks, hk, hks, rfl⟩
  · rintro ⟨k, ks, hk, hks, rfl⟩
    exact ⟨(k, ks), ⟨hk, hks⟩, rfl⟩

/-- The forms of several expressions, each lowered in the given way. -/
theorem offers_forms {f : Expr → Translate Lowered} (hoffers : ∀ e ∈ es, OffersFor f e)
    (hwf : t.WellFormed) (hP : t.Scopes P) (hes : ∀ e ∈ es, e.Among P)
    (h : es.mapM (fun e => f e >>= fun v => build e (Lowering.affineOf v)) t = .ok forms t') :
    (∀ form ∈ forms, form.Below t'.program.columns.size) ∧
      t.Offers t' P (fun σ ks => Expr.YieldsAll σ es ks) fun x => forms.map (·.eval x) := by
  induction es generalizing t forms with
  | nil =>
    obtain ⟨rfl, rfl⟩ := pure_eq_ok.1 h
    refine ⟨List.forall_mem_nil _, .refl hwf (fun _ _ _ => rfl) fun σ x ks _ _ => ?_⟩
    rw [Expr.yieldsAll_nil]
    exact eq_comm
  | cons e es ih =>
    rw [List.forall_mem_cons] at hoffers hes
    obtain ⟨form, t₁, rest, h₁, h₂, rfl⟩ := mapM_cons_eq_ok h
    obtain ⟨hbelow, ho₁⟩ := offers_form hoffers.1 hwf hP hes.1 h₁
    obtain ⟨hrest, ho₂⟩ := ih hoffers.2 ho₁.wellFormed (hP.mono ho₁.grows) hes.2 h₂
    exact ⟨List.forall_mem_cons.2 ⟨hbelow.mono ho₂.grows.program.size_le, hrest⟩,
      offers_cons ho₁ ho₂⟩

theorem offers_affines (hoffers : ∀ e ∈ es, OffersFor (lower limit deeper) e) (hwf : t.WellFormed)
    (hP : t.Scopes P) (hes : ∀ e ∈ es, e.Among P)
    (h : affines limit deeper es t = .ok forms t') :
    (∀ form ∈ forms, form.Below t'.program.columns.size) ∧
      t.Offers t' P (fun σ ks => Expr.YieldsAll σ es ks) fun x => forms.map (·.eval x) := by
  rw [affines_eq_mapM] at h
  exact offers_forms hoffers hwf hP hes h

/-- The truth values of values of several expressions. -/
def CanAllBe (σ : Valuation) (es : List Expr) (bs : List Bool) : Prop :=
  ∃ ks, Expr.YieldsAll σ es ks ∧ ks.map (fun k => decide (k ≠ 0)) = bs

theorem canAllBe_cons {b : Bool} {bs : List Bool} (he : CanBe σ e b) (hes : CanAllBe σ es bs) :
    CanAllBe σ (e :: es) (b :: bs) := by
  obtain ⟨k, hk, rfl⟩ := he
  obtain ⟨ks, hks, rfl⟩ := hes
  exact ⟨k :: ks, Expr.yieldsAll_cons.2 ⟨k, ks, hk, hks, rfl⟩, rfl⟩

theorem offers_literals (hoffers : ∀ e ∈ es, OffersFor (lower limit deeper) e) (hwf : t.WellFormed)
    (hP : t.Scopes P) (hes : ∀ e ∈ es, e.Among P)
    (h : literals limit deeper es t = .ok ls t') :
    (∀ l ∈ ls, t'.program.IsTruth l) ∧
      t.Offers t' P (fun σ bs => CanAllBe σ es bs) fun x => ls.map fun l => decide (l.Holds x) := by
  rw [literals_eq_mapM] at h
  induction es generalizing t ls with
  | nil =>
    obtain ⟨rfl, rfl⟩ := pure_eq_ok.1 h
    refine ⟨List.forall_mem_nil _, .refl hwf (fun _ _ _ => rfl) fun σ x bs _ _ => ?_⟩
    constructor
    · rintro ⟨ks, hks, rfl⟩
      rw [Expr.yieldsAll_nil.1 hks]
      rfl
    · rintro rfl
      exact ⟨[], .nil, rfl⟩
  | cons e es ih =>
    rw [List.forall_mem_cons] at hoffers hes
    obtain ⟨l, t₁, rest, h₁, h₂, rfl⟩ := mapM_cons_eq_ok h
    obtain ⟨htruth, ho₁⟩ := offers_literal hoffers.1 hwf hP hes.1 h₁
    obtain ⟨hrest, ho₂⟩ := ih hoffers.2 ho₁.wellFormed (hP.mono ho₁.grows) hes.2 h₂
    refine ⟨List.forall_mem_cons.2 ⟨htruth.mono ho₂.grows.program, hrest⟩, ?_⟩
    refine ((ho₁.trans ho₂).map fun c => c.1 :: c.2).congr fun σ bs => ?_
    constructor
    · rintro ⟨⟨b, bs⟩, ⟨hb, hbs⟩, rfl⟩
      exact canAllBe_cons hb hbs
    · rintro ⟨ks, hks, rfl⟩
      obtain ⟨k, ks', hk, hks', rfl⟩ := Expr.yieldsAll_cons.1 hks
      exact ⟨(_, _), ⟨⟨k, hk, rfl⟩, ⟨ks', hks', rfl⟩⟩, rfl⟩

theorem offers_equalities (hoffers : ∀ e ∈ es, OffersFor (lower limit deeper) e)
    (hvalue : OffersFor (lower limit deeper) value) (hwf : t.WellFormed) (hP : t.Scopes P)
    (hes : ∀ e ∈ es, e.Among P) (hv : value.Among P)
    (h : equalities limit deeper value (lower limit deeper value) es t = .ok hits t') :
    (∀ hit ∈ hits, hit.Below t'.program.columns.size) ∧
      t.Offers t' P (fun σ ks => Expr.YieldsAll σ (es.map fun e => e.equals value) ks) fun x =>
        hits.map (·.eval x) := by
  induction es generalizing t hits with
  | nil =>
    obtain ⟨rfl, rfl⟩ := pure_eq_ok.1 h
    refine ⟨List.forall_mem_nil _, .refl hwf (fun _ _ _ => rfl) fun σ x ks _ _ => ?_⟩
    rw [List.map_nil, Expr.yieldsAll_nil]
    exact eq_comm
  | cons e es ih =>
    rw [List.forall_mem_cons] at hoffers hes
    obtain ⟨a, b, hit, rest, t₁, t₂, t₃, h₁, h₂, h₃, h₄, rfl⟩ := equalities_cons_eq_ok h
    obtain ⟨ha, ho₁⟩ := offers_affine hoffers.1 hwf hP hes.1 h₁
    obtain ⟨hb, ho₂⟩ := offers_affine hvalue ho₁.wellFormed (hP.mono ho₁.grows) hv h₂
    have ho := ho₁.trans ho₂
    obtain ⟨hhit, hd⟩ := defines_of_affineOf ho.wellFormed.program
      (.relation ⟨ha.mono ho₂.grows.program.size_le, hb⟩) h₃
    have hhead := ho.defines (R := fun c k => ofTruth (Comparison.eq.Holds c.1 c.2) = k)
      (Q := fun σ k => (e.equals value).Yields σ (.number k)) (g := fun x => hit.eval x)
      (hd.weaken fun x _ hx => ?_) (fun x y hxy => hhit.eval_congr hxy)
      (by rintro c k k' rfl rfl; rfl) fun σ k => ?_
    · obtain ⟨hrest, htail⟩ :=
        ih hoffers.2 hhead.wellFormed (hP.mono hhead.grows) hes.2 h₄
      exact ⟨List.forall_mem_cons.2 ⟨hhit.mono htail.grows.program.size_le, hrest⟩,
        offers_cons hhead htail⟩
    · have hvalue : (Lowered.relation ⟨a, .eq, b⟩).value? x =
          some (ofTruth (a.eval x = b.eval x)) := by
        by_cases hab : a.eval x = b.eval x <;>
          simp [Lowered.value?, Relation.Holds, Comparison.Holds, ofTruth, hab]
      exact Option.some.inj (hvalue.symm.trans hx)
    · constructor
      · intro hk
        cases hk with
        | compare hl hr => exact ⟨(_, _), ⟨hl, hr⟩, rfl⟩
      · rintro ⟨⟨k₁, k₂⟩, ⟨hl, hr⟩, rfl⟩
        exact .compare hl hr

/-! ## Results -/

theorem offers_truth {Y : Valuation → Bool → Prop} {Z : Valuation → Expr.Outcome → Prop}
    (hl : t'.program.IsTruth l) (h : t.Offers t' P Y fun x => decide (l.Holds x))
    (hZ : ∀ σ o, Z σ o ↔ ∃ b, Y σ b ∧ o = .number (ofTruth b)) :
    t.Offers t' P Z fun x => (Lowered.literal l).outcome x := by
  refine h.defines (R := fun b o => o = .number (ofTruth b))
    (.refl h.wellFormed.program fun x hx => ?_) (fun x y hxy => ?_) (by rintro b o o' rfl rfl; rfl)
    hZ
  · refine Lowered.outcome_eq_number.2 (congrArg some ?_)
    rw [hl.eval_eq_ofTruth hx]
    by_cases hhold : l.Holds x <;> simp [ofTruth, hhold]
  · exact (Lowered.Over.literal hl).outcome_congr hxy

theorem offers_number {Y : Valuation → Int → Prop} {Z : Valuation → Expr.Outcome → Prop}
    (h : t.Offers t' P Y fun x => form.eval x)
    (hZ : ∀ σ o, Z σ o ↔ ∃ k, Y σ k ∧ o = .number k) :
    t.Offers t' P Z fun x => (Lowered.ofAffine form).outcome x := by
  have heq : (fun x => (Lowered.ofAffine form).outcome x) = fun x => .number (form.eval x) :=
    funext fun x => Lowered.outcome_eq_number.2 (Lowered.value?_ofAffine x form)
  rw [heq]
  refine (h.map .number).congr fun σ o => (Iff.trans ?_ (hZ σ o).symm)
  simp only [@eq_comm _ _ o]

/-! ## Globals -/

/-- What the next level of decomposition lowers offers the outcomes of the expression. -/
def OffersLevel (level : Deeper) : Prop := ∀ e, OffersFor level.lower e

/-- The literal of a conjunction. -/
theorem offers_conjunction {level : Deeper} {cs : List Expr} (hlevel : OffersLevel level)
    (hwf : t.WellFormed) (hP : t.Scopes P) (hcs : ∀ c ∈ cs, c.Among P)
    (h : (do
      let value ← level.lower (Expr.all cs)
      build (Expr.all cs) (literalOf value)) t = .ok l t') :
    t'.program.IsTruth l ∧
      t.Offers t' P (fun σ o => (Expr.all cs).Yields σ o) fun x => (Lowered.literal l).outcome x := by
  obtain ⟨hl, ho⟩ := offers_literalOf (hlevel _) hwf hP (Expr.allVars_all hcs) h
  refine ⟨hl, offers_truth hl ho fun σ o => ⟨fun hyields => ?_, ?_⟩⟩
  · obtain ⟨b, rfl⟩ := Expr.yields_all hyields
    exact ⟨b, ⟨_, hyields, ofTruth_ne_zero b⟩, rfl⟩
  · rintro ⟨b, ⟨k, hyields, hb⟩, rfl⟩
    obtain ⟨b', heq⟩ := Expr.yields_all hyields
    cases heq
    rw [ofTruth_ne_zero] at hb
    exact hb ▸ hyields

/-- A global with a decomposition becomes the literal of its members. -/
theorem offers_reifyGlobal (hlevel : ∀ level, deeper = some level → OffersLevel level)
    (hwf : t.WellFormed) (hP : t.Scopes P) (hg : (Expr.global g).Among P)
    (h : reifyGlobal limit deeper g t = .ok n t') :
    n.Over t'.program ∧
      t.Offers t' P (fun σ o => (Expr.global g).Yields σ o) fun x => n.outcome x := by
  obtain ⟨⟨level, cs⟩, t₁, h₁, h⟩ := bind_eq_ok.1 h
  obtain ⟨hdeeper, d, hd, rfl, rfl⟩ := expand_eq_ok h₁
  obtain ⟨l, t₂, h₂, h⟩ := bind_eq_ok.1 h
  obtain ⟨rfl, rfl⟩ := pure_eq_ok.1 h
  obtain ⟨s, hs, rfl⟩ := nested_eq_ok h₂
  obtain ⟨ι, P', valid, mix, hunfolds⟩ := Draft.exists_unfolds hwf hP hg hd
  have hwf₁ := hunfolds.opens.wellFormed
  obtain ⟨hl, ho⟩ := offers_conjunction (hlevel level hdeeper) ((hwf₁.logged g).atDepth _ _)
    hunfolds.scopes hunfolds.members hs
  refine ⟨.literal hl, (hunfolds.opens.offers ho.relabel).congr fun σ o => ?_⟩
  exact (hunfolds.yields σ o).symm

theorem yields_extremum_iff {kind : GlobalKind} {o : Expr.Outcome}
    (hkind : kind = .min ∨ kind = .max) : (Expr.global (.plain kind es)).Yields σ o ↔
      ∃ vs, Expr.YieldsAll σ es vs ∧ ∃ k, kind.apply (vs.map some) = some k ∧ o = .number k := by
  constructor
  · intro h
    cases h with
    | extremum _ hargs hk => exact ⟨_, hargs, _, hk, rfl⟩
    | decomposed _ hd _ => rcases hkind with rfl | rfl <;> cases hd
    | circuit _ _ => rcases hkind with h | h <;> cases h
  · rintro ⟨vs, hargs, k, hk, rfl⟩
    exact .extremum hkind hargs hk

theorem offers_extremum {kind : GlobalKind} (hkind : kind = .min ∨ kind = .max)
    (hoffers : ∀ e ∈ es, OffersFor (lower limit deeper) e) (hwf : t.WellFormed)
    (hP : t.Scopes P) (hes : ∀ e ∈ es, e.Among P)
    (h : (do extremum kind es (← affines limit deeper es)) t = .ok n t') :
    n.Over t'.program ∧ t.Offers t' P (fun σ o => (Expr.global (.plain kind es)).Yields σ o)
      fun x => n.outcome x := by
  obtain ⟨forms, t₁, h₁, h₂⟩ := bind_eq_ok.1 h
  obtain ⟨hforms, ho⟩ := offers_affines hoffers hwf hP hes h₁
  obtain ⟨hover, hd⟩ := defines_extremum ho.wellFormed.program hkind hforms h₂
  refine ⟨hover, ho.defines
    (R := fun vs o => ∃ k, kind.apply (vs.map some) = some k ∧ o = .number k)
    (hd.weaken fun x _ hx => ?_) (fun x y hxy => hover.outcome_congr hxy) ?_
    fun σ o => yields_extremum_iff hkind⟩
  · obtain ⟨k, hk, hn⟩ := hx
    exact ⟨k, hk, Lowered.outcome_eq_number.2 hn⟩
  · rintro vs _ _ ⟨k, hk, rfl⟩ ⟨k', hk', rfl⟩
    rw [hk, Option.some.injEq] at hk'
    rw [hk']

theorem offers_count (hoffers : ∀ e ∈ es, OffersFor (lower limit deeper) e)
    (hvalue : OffersFor (lower limit deeper) value) (hwf : t.WellFormed) (hP : t.Scopes P)
    (hes : ∀ e ∈ es, e.Among P) (hv : value.Among P)
    (h : lowerGlobal limit deeper (.count es value) t = .ok n t') :
    n.Over t'.program ∧ t.Offers t' P (fun σ o => (Expr.global (.count es value)).Yields σ o)
      fun x => n.outcome x := by
  obtain ⟨hits, t₁, h₁, h⟩ := bind_eq_ok.1 h
  obtain ⟨hhits, ho⟩ := offers_equalities hoffers hvalue hwf hP hes hv h₁
  obtain ⟨c, t₂, h₂, h⟩ := bind_eq_ok.1 h
  obtain ⟨rfl, rfl⟩ := pure_eq_ok.1 h
  obtain ⟨hc, hd⟩ := defines_of_computes h₂ fun q hq =>
    computes_of_foldlM_plus ho.wellFormed.program hhits hq
  have hsum := ho.defines (R := fun ks k => List.sum ks = k)
    (Q := fun σ k => ∃ ks, Expr.YieldsAll σ (es.map fun e => e.equals value) ks ∧ ks.sum = k)
    (hd.weaken fun x _ hx => hx.symm) (fun x y hxy => hc.eval_congr hxy)
    (by rintro ks k k' rfl rfl; rfl) fun σ k => Iff.rfl
  refine ⟨Lowered.over_ofAffine hc, offers_number hsum fun σ o => ⟨fun hyields => ?_, ?_⟩⟩
  · cases hyields with
    | count hhits => exact ⟨_, ⟨_, hhits, rfl⟩, rfl⟩
    | decomposed _ hd _ => cases hd
  · rintro ⟨_, ⟨ks, hks, rfl⟩, rfl⟩
    exact .count hks

theorem offers_lowerGlobal (hlevel : ∀ level, deeper = some level → OffersLevel level)
    (iha : ∀ e ∈ g.args, OffersFor (lower limit deeper) e) (hwf : t.WellFormed)
    (hP : t.Scopes P) (hg : (Expr.global g).Among P) (h : lowerGlobal limit deeper g t = .ok n t') :
    n.Over t'.program ∧
      t.Offers t' P (fun σ o => (Expr.global g).Yields σ o) fun x => n.outcome x := by
  have hargs : ∀ e ∈ g.args, e.Among P := fun e he => hg.child he
  cases g with
  | plain kind args =>
    cases kind with
    | min => exact offers_extremum (.inl rfl) iha hwf hP hargs h
    | max => exact offers_extremum (.inr rfl) iha hwf hP hargs h
    | _ => exact offers_reifyGlobal hlevel hwf hP hg h
  | count args value =>
    have hlast : value ∈ args ++ [value] :=
      List.mem_append_right _ (List.mem_singleton_self value)
    exact offers_count (fun e he => iha e (List.mem_append_left _ he)) (iha value hlast) hwf hP
      (fun e he => hargs e (List.mem_append_left _ he)) (hargs value hlast) h
  | cardinality args values counts => exact offers_reifyGlobal hlevel hwf hP hg h
  | named name args => exact offers_reifyGlobal hlevel hwf hP hg h
  | defined name args constraints newVars => exact offers_reifyGlobal hlevel hwf hP hg h

/-! ## Expressions -/

theorem yields_op_iff {o : Operator} {k : Int} : (Expr.op o es).Yields σ (.number k) ↔
    ∃ vs, Expr.YieldsAll σ es vs ∧ o.apply vs = some k := by
  constructor
  · intro h
    cases h with
    | op hargs ho => exact ⟨_, hargs, ho⟩
  · rintro ⟨vs, hargs, ho⟩
    exact .op hargs ho

theorem exists_number_of_op {o : Operator} {r : Expr.Outcome} (h : (Expr.op o es).Yields σ r) :
    ∃ k, r = .number k := by
  cases h
  exact ⟨_, rfl⟩

/-- Connectives come to the truth values that the truth values of their arguments give. -/
theorem yields_connective_iff {o : Operator} {r : Expr.Outcome} (ho : o.IsConnective)
    (harity : o = .implies → es.length = 2) : (Expr.op o es).Yields σ r ↔
      ∃ b, (∃ bs, CanAllBe σ es bs ∧ o.truth bs = b) ∧ r = .number (ofTruth b) := by
  have happly : ∀ {vs}, Expr.YieldsAll σ es vs →
      o.apply vs = some (ofTruth (o.truth (vs.map fun k => decide (k ≠ 0)))) := fun hargs =>
    apply_connective ho fun heq => (Expr.length_of_yieldsAll hargs).trans (harity heq)
  constructor
  · intro h
    obtain ⟨k, rfl⟩ := exists_number_of_op h
    obtain ⟨vs, hargs, hk⟩ := yields_op_iff.1 h
    rw [happly hargs] at hk
    cases hk
    exact ⟨_, ⟨_, ⟨vs, hargs, rfl⟩, rfl⟩, rfl⟩
  · rintro ⟨_, ⟨_, ⟨vs, hargs, rfl⟩, rfl⟩, rfl⟩
    exact .op hargs (happly hargs)

/-- The truth values that a connective can have. -/
theorem canBe_connective_iff {o : Operator} {b : Bool} (ho : o.IsConnective)
    (harity : o = .implies → es.length = 2) :
    CanBe σ (.op o es) b ↔ ∃ bs, CanAllBe σ es bs ∧ o.truth bs = b := by
  constructor
  · rintro ⟨k, hk, rfl⟩
    obtain ⟨b, hb, heq⟩ := (yields_connective_iff ho harity).1 hk
    cases heq
    rwa [ofTruth_ne_zero]
  · intro hb
    exact ⟨_, (yields_connective_iff ho harity).2 ⟨b, hb, rfl⟩, ofTruth_ne_zero b⟩

theorem offers_connective {o : Operator} (ho : o.IsConnective)
    (hoffers : ∀ e ∈ es, OffersFor (lower limit deeper) e) (hwf : t.WellFormed)
    (hP : t.Scopes P) (hes : ∀ e ∈ es, e.Among P)
    (h : lower limit deeper (.op o es) t = .ok n t') :
    n.Over t'.program ∧
      t.Offers t' P (fun σ r => (Expr.op o es).Yields σ r) fun x => n.outcome x := by
  rw [lower_connective ho] at h
  obtain ⟨_, _, h₁, h⟩ := bind_eq_ok.1 h
  obtain ⟨rfl, harity⟩ := checkArity_eq_ok h₁
  obtain ⟨ls, t₂, h₂, h⟩ := bind_eq_ok.1 h
  obtain ⟨hls, hoff⟩ := offers_literals hoffers hwf hP hes h₂
  obtain ⟨l, t₃, h₃, h⟩ := bind_eq_ok.1 h
  obtain ⟨rfl, rfl⟩ := pure_eq_ok.1 h
  obtain ⟨q, hq, rfl⟩ := build_eq_ok.1 h₃
  have htwo : o = .implies → es.length = 2 := fun heq => harity 2 (by rw [heq]; rfl)
  have hreifies := reifies_of_connective hoff.wellFormed.program ho
    (fun heq => (length_of_literals h₂).trans (htwo heq)) hls hq
  have htruth : t.Offers { t₂ with program := q } P
      (fun σ b => ∃ bs, CanAllBe σ es bs ∧ o.truth bs = b) fun x => decide (l.Holds x) := by
    refine hoff.defines (R := fun bs b => o.truth bs = b)
      (.of_program (hreifies.defines.weaken fun x _ hx => ?_))
      (fun x y hxy => decide_eq_decide.2 (holds_congr hreifies.truth.column_lt hxy))
      (by rintro bs b b' rfl rfl; rfl) fun σ b => Iff.rfl
    rw [Bool.eq_iff_iff, decide_eq_true_iff]
    exact hx.symm
  exact ⟨.literal hreifies.truth,
    offers_truth hreifies.truth htruth fun σ r => yields_connective_iff ho htwo⟩

theorem offers_arithmetic {o : Operator} (ho : o.IsArithmetic)
    (hoffers : ∀ e ∈ es, OffersFor (lower limit deeper) e) (hwf : t.WellFormed)
    (hP : t.Scopes P) (hes : ∀ e ∈ es, e.Among P)
    (h : lower limit deeper (.op o es) t = .ok n t') :
    n.Over t'.program ∧
      t.Offers t' P (fun σ r => (Expr.op o es).Yields σ r) fun x => n.outcome x := by
  rw [lower_arithmetic ho] at h
  obtain ⟨_, _, h₁, h⟩ := bind_eq_ok.1 h
  obtain ⟨rfl, harity⟩ := checkArity_eq_ok h₁
  obtain ⟨forms, t₂, h₂, h⟩ := bind_eq_ok.1 h
  obtain ⟨hforms, hoff⟩ := offers_affines hoffers hwf hP hes h₂
  obtain ⟨c, t₃, h₃, h⟩ := bind_eq_ok.1 h
  obtain ⟨rfl, rfl⟩ := pure_eq_ok.1 h
  obtain ⟨hc, hd⟩ := defines_arithmetic hoff.wellFormed.program ho
    (fun k hk => (length_of_affines h₂).trans (harity k hk)) hforms h₃
  have hnumber := hoff.defines (R := fun vs k => o.apply vs = some k)
    (Q := fun σ k => (Expr.op o es).Yields σ (.number k)) hd
    (fun x y hxy => hc.eval_congr hxy)
    (fun vs k k' hk hk' => Option.some.inj (hk.symm.trans hk')) fun σ k => yields_op_iff
  refine ⟨Lowered.over_ofAffine hc, offers_number hnumber fun σ r => ⟨fun hr => ?_, ?_⟩⟩
  · obtain ⟨k, rfl⟩ := exists_number_of_op hr
    exact ⟨k, hr, rfl⟩
  · rintro ⟨k, hk, rfl⟩
    exact hk

theorem offers_compare {c : Comparison} {lhs rhs : Expr}
    (hl : OffersFor (lower limit deeper) lhs) (hr : OffersFor (lower limit deeper) rhs) :
    OffersFor (lower limit deeper) (.compare c lhs rhs) := by
  intro t t' n P hwf hP he h
  simp only [lower, bind_eq_ok, pure_eq_ok] at h
  obtain ⟨m, s₁, h₁, a, t₁, h₂, m', s₂, h₃, b, t₂, h₄, rfl, rfl⟩ := h
  obtain ⟨ha, ho₁⟩ := offers_affine hl hwf hP (he.child (by simp [Expr.children]))
    (bind_eq_ok.2 ⟨m, s₁, h₁, h₂⟩)
  obtain ⟨hb, ho₂⟩ := offers_affine hr ho₁.wellFormed (hP.mono ho₁.grows)
    (he.child (by simp [Expr.children])) (bind_eq_ok.2 ⟨m', s₂, h₃, h₄⟩)
  have hover : (Lowered.relation ⟨a, c, b⟩).Over t₂.program :=
    .relation ⟨ha.mono ho₂.grows.program.size_le, hb⟩
  refine ⟨hover, (ho₁.trans ho₂).defines
    (R := fun k o => o = .number (ofTruth (c.Holds k.1 k.2)))
    (.refl ho₂.wellFormed.program fun x _ => ?_) (fun x y hxy => hover.outcome_congr hxy)
    (by rintro k o o' rfl rfl; rfl) fun σ o => ?_⟩
  · refine Lowered.outcome_eq_number.2 ?_
    by_cases hhold : c.Holds (a.eval x) (b.eval x) <;>
      simp [Lowered.value?, Relation.Holds, ofTruth, hhold]
  · constructor
    · intro hyields
      cases hyields with
      | compare hl hr => exact ⟨(_, _), ⟨hl, hr⟩, rfl⟩
    · rintro ⟨k, ⟨hl, hr⟩, rfl⟩
      exact .compare hl hr

theorem offers_element {index : Expr} (ha : ∀ e ∈ es, OffersFor (lower limit deeper) e)
    (hi : OffersFor (lower limit deeper) index) :
    OffersFor (lower limit deeper) (.element es index) := by
  intro t t' n P hwf hP he h
  simp only [lower, bind_eq_ok] at h
  obtain ⟨m, s₁, h₁, i, t₁, h₂, items, t₂, h₃, h₄⟩ := h
  obtain ⟨hindex, ho₁⟩ := offers_affine hi hwf hP (he.child (by simp [Expr.children]))
    (bind_eq_ok.2 ⟨m, s₁, h₁, h₂⟩)
  obtain ⟨hitems, ho₂⟩ := offers_affines ha ho₁.wellFormed (hP.mono ho₁.grows)
    (fun e he' => he.child (List.mem_append_left _ he')) h₃
  obtain ⟨hover, hd⟩ := defines_selectItem ho₂.wellFormed.program
    (hindex.mono ho₂.grows.program.size_le) hitems h₄
  refine ⟨hover, (ho₁.trans ho₂).defines
    (R := fun c o => ∃ k, itemAt? c.2 c.1 = some k ∧ o = .number k)
    (hd.weaken fun x _ hx => ?_) (fun x y hxy => hover.outcome_congr hxy) ?_ fun σ o => ?_⟩
  · obtain ⟨item, hitem, hn⟩ := hx
    refine ⟨item.eval x, ?_, Lowered.outcome_eq_number.2 hn⟩
    rw [itemAt?_map, hitem]
    rfl
  · rintro c _ _ ⟨k, hk, rfl⟩ ⟨k', hk', rfl⟩
    rw [hk, Option.some.injEq] at hk'
    rw [hk']
  · constructor
    · intro hyields
      cases hyields with
      | element hindex harray hk => exact ⟨(_, _), ⟨hindex, harray⟩, _, hk, rfl⟩
    · rintro ⟨c, ⟨hindex, harray⟩, k, hk, rfl⟩
      exact .element hindex harray hk

theorem offers_variable {k : Int → Int} (hwf : t.WellFormed) (hn : n.Over t.program)
    (hv : t.layout.Has v) (hP : P v.toVarKey)
    (hvalue : ∀ x, n.value? x = some (k (t.layout.valuation x v.toVarKey)))
    (he : ∀ σ o, e.Yields σ o ↔ .number (k (σ v.toVarKey)) = o) :
    t.Offers t P (fun σ o => e.Yields σ o) fun x => n.outcome x := by
  refine .refl hwf (fun x y hxy => hn.outcome_congr hxy) fun σ x o _ hσ => ?_
  rw [he, Lowered.outcome_eq_number.2 (hvalue x), hσ v hv hP]

theorem offers_const (c : Int) : OffersFor (lower limit deeper) (.const c) := by
  intro t t' n P hwf hP he h
  obtain ⟨rfl, rfl⟩ := pure_eq_ok.1 h
  refine ⟨.const c, .refl hwf (fun _ _ _ => rfl) fun σ x o _ _ => ⟨fun hyields => ?_, ?_⟩⟩
  · cases hyields
    rfl
  · rintro rfl
    exact .const c

theorem offers_var (v : Var) : OffersFor (lower limit deeper) (.var v) := by
  intro t t' n P hwf hP he h
  obtain ⟨image, t₁, h₁, h⟩ := bind_eq_ok.1 h
  obtain ⟨hv, rfl⟩ := imageOf_eq_ok h₁
  obtain ⟨rfl, rfl⟩ := pure_eq_ok.1 h
  obtain ⟨hover, hvalue⟩ := over_of_image hwf.sound hv
  have hhas : t.layout.Has v := Option.isSome_iff_exists.2 ⟨image, hv⟩
  cases he with
  | var hPv =>
    refine ⟨hover, offers_variable (k := fun k => k) hwf hover hhas hPv hvalue fun σ o =>
      ⟨fun hyields => ?_, ?_⟩⟩
    · cases hyields
      rfl
    · rintro rfl
      exact .var v

/-- Only a variable that stands for a truth value has a complement. -/
theorem offers_complement (v : Var) : OffersFor (lower limit deeper) (.complement v) := by
  intro t t' n P hwf hP he h
  obtain ⟨image, t₁, h₁, h⟩ := bind_eq_ok.1 h
  obtain ⟨hv, rfl⟩ := imageOf_eq_ok h₁
  obtain ⟨hover, hvalue⟩ := over_of_image hwf.sound hv
  have hhas : t.layout.Has v := Option.isSome_iff_exists.2 ⟨image, hv⟩
  cases image with
  | int i => cases throw_eq_ok.1 h
  | bool l =>
    obtain ⟨rfl, rfl⟩ := pure_eq_ok.1 h
    have hcomplement : ∀ x, (Lowered.literal l.negate).value? x =
        some (1 - t.layout.valuation x v.toVarKey) := fun x => by
      rw [Lowered.value?, eval_toAffine_negate, Option.some.inj (hvalue x)]
    cases hover with
    | literal hl =>
      have hnegate : (Lowered.literal l.negate).Over t.program := .literal (isTruth_negate.2 hl)
      cases he with
      | complement hPv =>
        refine ⟨hnegate, offers_variable (k := fun k => 1 - k) hwf hnegate hhas hPv hcomplement
          fun σ o => ⟨fun hyields => ?_, ?_⟩⟩
        · cases hyields
          rfl
        · rintro rfl
          exact .complement v

theorem offers_list (ih : ∀ e ∈ es, OffersFor (lower limit deeper) e) :
    OffersFor (lower limit deeper) (.list es) := by
  intro t t' n P hwf hP he h
  obtain ⟨ns, t₁, h₁, h⟩ := bind_eq_ok.1 h
  obtain ⟨rfl, rfl⟩ := pure_eq_ok.1 h
  obtain ⟨hover, ho⟩ := offers_lowerAll ih hwf hP (fun e he' => he.child he') h₁
  refine ⟨.sequence hover, (ho.map Expr.Outcome.sequence).congr fun σ o => ⟨?_, fun hyields => ?_⟩⟩
  · rintro ⟨ks, hks, rfl⟩
    exact hks
  · cases hyields with
    | nil => exact ⟨_, .nil, rfl⟩
    | cons hhead htail => exact ⟨_, .cons hhead htail, rfl⟩

theorem offers_op {o : Operator} (ih : ∀ e ∈ es, OffersFor (lower limit deeper) e) :
    OffersFor (lower limit deeper) (.op o es) := by
  intro t t' n P hwf hP he h
  have hes : ∀ e ∈ es, e.Among P := fun e he' => he.child he'
  rcases o.eq_xor_or with rfl | ho | ho
  · obtain ⟨_, _, _, h⟩ := bind_eq_ok.1 h
    cases throw_eq_ok.1 h
  · exact offers_connective ho ih hwf hP hes h
  · exact offers_arithmetic ho ih hwf hP hes h

/-- Lowering offers exactly what the expression can come to. -/
theorem offers_lower (hlevel : ∀ level, deeper = some level → OffersLevel level) (e : Expr) :
    OffersFor (lower limit deeper) e := by
  induction e using Expr.induction with
  | const c => exact offers_const c
  | var v => exact offers_var v
  | complement v => exact offers_complement v
  | list es ih => exact offers_list ih
  | op o args ih => exact offers_op ih
  | compare c lhs rhs ihl ihr => exact offers_compare ihl ihr
  | element array index iha ihi => exact offers_element iha ihi
  | global g iha _ =>
    intro t t' n P hwf hP he h
    exact offers_lowerGlobal hlevel iha hwf hP he h

theorem offers_lowerWithin (limit levels : Nat) (e : Expr) :
    OffersFor (lowerWithin limit levels) e := by
  rw [lowerWithin_eq]
  exact offers_lower (forall_below (fun _ hlevel => offers_lower hlevel) levels) e

end Translate

end Linearization
