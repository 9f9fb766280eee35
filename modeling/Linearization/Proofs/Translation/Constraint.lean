import Linearization.Proofs.Translation.Expansion
import Linearization.Proofs.Translation.Value

/-!
# Exactness of imposed constraints

Imposing a postable expression whose variables are registered adds exactly that it holds whenever
every guard is true (`posts_impose`). Where a decomposition introduces variables, an earlier
solution extends if and only if these can be chosen so that the members hold.
-/

namespace Linearization

open Linearization.Valuation

namespace Translate

open Ilp Literal Lowering

variable {t t' : Draft} {e lhs rhs other index : Expr} {es : List Expr} {g : Global}
  {guards : List Literal} {c : Comparison} {u : Unit} {l : Literal} {limit : Nat}
  {deeper : Option Deeper} {σ : Valuation} {x : Assignment}

/-! ## Comparisons -/

theorem holdsItemwise_pairUp {left right : Lowered} {pairs : List (Lowered × Lowered)}
    (f : Lowered → Option Int) (h : left.pairUp right = some pairs) :
    c.holdsItemwise (left.items.map f) (right.items.map f) =
      pairs.all fun pair => c.holds? (f pair.1) (f pair.2) := by
  have hzip : ∀ ls rs : List Lowered, ls.length = rs.length →
      (decide ((ls.map f).length = (rs.map f).length) &&
        ((ls.map f).zipWith c.holds? (rs.map f)).all id) =
        (ls.zip rs).all fun pair => c.holds? (f pair.1) (f pair.2) := fun ls rs hlength => by
    rw [List.length_map, List.length_map, decide_eq_true hlength, Bool.true_and, List.zipWith_map,
      all_zipWith]
    rfl
  unfold Lowered.pairUp at h
  generalize left.items = ls at h ⊢
  generalize right.items = rs at h ⊢
  match ls, rs, h with
  | [l], rs, h =>
    cases h
    rw [List.all_map]
    show ((rs.map f).all _) = _
    rw [List.all_map]
    rfl
  | [], [r], h =>
    cases h
    rfl
  | l :: l' :: ls, [r], h =>
    cases h
    simp only [List.map_cons, List.map_nil, Comparison.holdsItemwise, List.all_cons, List.all_map]
    rfl
  | [], [], h =>
    cases h
    rfl
  | [], r :: r' :: rs, h => cases h
  | l :: l' :: ls, [], h => cases h
  | l :: l' :: ls, r :: r' :: rs, h =>
    dsimp only at h
    split at h
    · rename_i hlength
      cases h
      exact hzip _ _ hlength
    · cases h

theorem posts_imposePair {l r : Lowered} {t₁ t₂ : Draft} {a b : Affine} (hwf : t.WellFormed)
    (hg : ∀ g ∈ guards, t.program.IsTruth g) (hl : l.Over t.program) (hr : r.Over t.program)
    (h₁ : build e (affineOf l) t = .ok a t₁) (h₂ : build e (affineOf r) t₁ = .ok b t₂)
    (h₃ : build e (enforce ⟨a, c, b⟩ guards) t₂ = .ok u t') :
    t.Posts t' [] fun _ x => AllHold guards x → c.holds? (l.value? x) (r.value? x) = true := by
  obtain ⟨ha, hd₁⟩ := defines_of_affineOf hwf.program hl h₁
  have hwf₁ := hd₁.wellFormed hwf
  obtain ⟨hb, hd₂⟩ := defines_of_affineOf hwf₁.program (hr.mono hd₁.defines.grows) h₂
  have hd := hd₁.trans hd₂
  obtain ⟨q, hq, rfl⟩ := build_eq_ok.1 h₃
  have himposes := imposes_of_enforce (hd.wellFormed hwf).program
    (fun g h => (hg g h).mono hd.defines.grows) hq
  refine Draft.Posts.after_defines hd (.of_program (hd.wellFormed hwf) [] himposes)
    (fun x _ hx => ?_) ?_
  · rw [hx.1, hx.2]
    exact imp_congr_right fun _ => decide_eq_true_iff.symm
  · refine (local_allHold fun g h => (hg g h).column_lt).imp fun x y hxy => ?_
    rw [hl.value?_congr hxy, hr.value?_congr hxy]

theorem posts_imposePairs {pairs : List (Lowered × Lowered)} (hwf : t.WellFormed)
    (hg : ∀ g ∈ guards, t.program.IsTruth g)
    (hpairs : ∀ pair ∈ pairs, pair.1.Over t.program ∧ pair.2.Over t.program)
    (h : imposePairs e c guards pairs t = .ok u t') :
    t.Posts t' [] fun _ x => AllHold guards x →
      pairs.all (fun pair => c.holds? (pair.1.value? x) (pair.2.value? x)) = true := by
  induction pairs generalizing t with
  | nil =>
    obtain ⟨-, rfl⟩ := pure_eq_ok.1 h
    exact .refl hwf [] fun x _ _ => rfl
  | cons pair pairs ih =>
    obtain ⟨l, r⟩ := pair
    obtain ⟨⟨hl, hr⟩, hpairs'⟩ := List.forall_mem_cons.1 hpairs
    obtain ⟨a, t₁, h₁, h⟩ := bind_eq_ok.1 h
    obtain ⟨b, t₂, h₂, h⟩ := bind_eq_ok.1 h
    obtain ⟨u', t₃, h₃, h⟩ := bind_eq_ok.1 h
    have hfirst := posts_imposePair hwf hg hl hr h₁ h₂ h₃
    have hgrows := hfirst.imposes.grows
    have hrest := ih hfirst.wellFormed (fun g h => (hg g h).mono hgrows)
      (fun pair h => ⟨(hpairs' pair h).1.mono hgrows, (hpairs' pair h).2.mono hgrows⟩) h
    refine (hfirst.trans hrest (fun _ => Iff.rfl) ?_).congr fun x _ => ?_
    · refine (local_allHold fun g h => (hg g h).column_lt).imp fun x y hxy => ?_
      rw [List.all_eq_true, List.all_eq_true]
      refine forall₂_congr fun pair h => ?_
      rw [(hpairs' pair h).1.value?_congr hxy, (hpairs' pair h).2.value?_congr hxy]
    · rw [List.all_cons, Bool.and_eq_true]
      exact imp_and.symm

/-- A comparison holds item by item. -/
theorem posts_imposeItemwise (hlevel : ∀ level, deeper = some level → ExactLevel level)
    (hl : lhs.Flat) (hr : rhs.Flat) (hwf : t.WellFormed) (hcl : t.layout.Covers lhs)
    (hcr : t.layout.Covers rhs) (hg : ∀ g ∈ guards, t.program.IsTruth g)
    (h : imposeItemwise limit deeper c lhs rhs guards t = .ok u t') :
    t.Posts t' [] (Guarded guards fun σ => (Expr.compare c lhs rhs).holds σ = true) := by
  obtain ⟨left, t₁, h₁, h⟩ := bind_eq_ok.1 h
  obtain ⟨right, t₂, h₂, h⟩ := bind_eq_ok.1 h
  obtain ⟨hleft, hd₁⟩ := exact_lower hlevel lhs hl hwf hcl h₁
  have hwf₁ := hd₁.wellFormed hwf
  obtain ⟨hright, hd₂⟩ := exact_lower hlevel rhs hr hwf₁ (hd₁.covers hcr) h₂
  have hd := hd₁.trans hd₂
  cases hpairs : left.pairUp right with
  | none =>
    rw [hpairs] at h
    cases throw_eq_ok.1 h
  | some pairs =>
    rw [hpairs] at h
    have hover : ∀ pair ∈ pairs, pair.1.Over t₂.program ∧ pair.2.Over t₂.program := fun pair h =>
      ⟨(hleft.mono hd₂.defines.grows).items _ (Lowered.mem_pairUp hpairs pair h).1,
        hright.items _ (Lowered.mem_pairUp hpairs pair h).2⟩
    have hposts := posts_imposePairs (hd.wellFormed hwf)
      (fun g h => (hg g h).mono hd.defines.grows) hover h
    refine Draft.Posts.after_defines hd hposts (fun x _ hx => ?_) (local_guarded hwf hg _)
    rw [← holdsItemwise_pairUp _ hpairs, ← hx.1.itemValues, ← hx.2.itemValues]
    exact Iff.rfl

theorem isItemAt_iff {items : List Affine} {i target : Affine}
    (hitems : valuesOf σ es = (items.map (·.eval x)).map some)
    (hindex : index.value? σ = some (i.eval x)) (hother : other.value? σ = some (target.eval x)) :
    IsItemAt items target (i.eval x) x ↔
      Comparison.eq.holds? ((Expr.element es index).value? σ) (other.value? σ) = true := by
  rw [value?_element hitems hindex, itemAt?_map, hother]
  show (∃ item, itemAt? items (i.eval x) = some item ∧ _) ↔ _
  cases itemAt? items (i.eval x) with
  | none => simp [Comparison.holds?]
  | some item =>
    rw [Option.map_some, holds?_some_eq]
    simp

theorem holds?_eq_comm (a b : Option Int) :
    Comparison.eq.holds? a b = Comparison.eq.holds? b a := by
  cases a with
  | none => cases b <;> rfl
  | some v =>
    cases b with
    | none => rfl
    | some w =>
      rw [Bool.eq_iff_iff, holds?_some_eq, holds?_some_eq]
      exact eq_comm

/-- Equality with an array element, stated as any condition that comes down to it. -/
theorem posts_imposeElement (hlevel : ∀ level, deeper = some level → ExactLevel level)
    (he : (Expr.element es index).Flat) (ho : other.Flat) (hwf : t.WellFormed)
    (hce : t.layout.Covers (.element es index)) (hco : t.layout.Covers other)
    (hg : ∀ g ∈ guards, t.program.IsTruth g)
    (h : imposeElement limit deeper e es index other guards t = .ok u t') {P : Valuation → Prop}
    (hP : ∀ σ, (other.value? σ).isSome → (P σ ↔
      Comparison.eq.holds? ((Expr.element es index).value? σ) (other.value? σ) = true)) :
    t.Posts t' [] (Guarded guards P) := by
  cases he with
  | element ha hi =>
    obtain ⟨i, t₁, h₁, h⟩ := bind_eq_ok.1 h
    obtain ⟨items, t₂, h₂, h⟩ := bind_eq_ok.1 h
    obtain ⟨target, t₃, h₃, h⟩ := bind_eq_ok.1 h
    obtain ⟨hi', hd₁⟩ := defines_affine (exact_lower hlevel index hi) hwf
      (hce.child (by simp [Expr.children])) h₁
    have hwf₁ := hd₁.wellFormed hwf
    obtain ⟨hitems, hd₂⟩ := defines_affines (fun d hd => exact_lower hlevel d (ha d hd)) hwf₁
      (fun d hd => hd₁.covers (hce.child (List.mem_append_left _ hd))) h₂
    have hwf₂ := hd₂.wellFormed hwf₁
    obtain ⟨htarget, hd₃⟩ := defines_affine (exact_lower hlevel other ho) hwf₂
      ((hd₁.trans hd₂).covers hco) h₃
    have hd := (hd₁.trans hd₂).trans hd₃
    have hwf₃ := hd.wellFormed hwf
    obtain ⟨q, hq, rfl⟩ := build_eq_ok.1 h
    have himposes := imposes_of_enforceElement hwf₃.program
      (fun g h => (hg g h).mono hd.defines.grows)
      (hi'.mono (Nat.le_trans hd₂.size_le hd₃.size_le)) htarget
      (fun item h => (hitems item h).mono hd₃.size_le) hq
    refine Draft.Posts.after_defines hd (.of_program hwf₃ [] himposes) (fun x _ hx => ?_)
      (local_guarded hwf hg P)
    have hsome : (other.value? (t.layout.valuation x)).isSome := by
      rw [hx.2]
      rfl
    exact imp_congr_right fun _ => (isItemAt_iff hx.1.2 hx.1.1 hx.2).trans (hP _ hsome).symm

theorem element_ne_list (array : List Expr) (index : Expr) (es : List Expr) :
    Expr.element array index ≠ .list es := nofun

theorem posts_imposeComparison (hlevel : ∀ level, deeper = some level → ExactLevel level)
    (hl : lhs.Flat) (hr : rhs.Flat) (hwf : t.WellFormed) (hcl : t.layout.Covers lhs)
    (hcr : t.layout.Covers rhs) (hg : ∀ g ∈ guards, t.program.IsTruth g)
    (h : imposeComparison limit deeper c lhs rhs guards t = .ok u t') :
    t.Posts t' [] (Guarded guards fun σ => (Expr.compare c lhs rhs).holds σ = true) := by
  unfold imposeComparison at h
  split at h
  · refine posts_imposeElement hlevel hl hr hwf hcl hcr hg h fun σ hsome => ?_
    rw [holds_compare (element_ne_list _ _) (ne_list_of_isSome hsome)]
  · refine posts_imposeElement hlevel hr hl hwf hcr hcl hg h fun σ hsome => ?_
    rw [holds_compare (ne_list_of_isSome hsome) (element_ne_list _ _), holds?_eq_comm]
  · exact posts_imposeItemwise hlevel hl hr hwf hcl hcr hg h

/-! ## Literals and connectives -/

/-- A clause, stated as any condition that comes down to one of the arguments being true. -/
theorem posts_clause {ls : List Literal} {t₁ : Draft} (hwf : t.WellFormed)
    (hg : ∀ g ∈ guards, t.program.IsTruth g)
    (hd : t.Defines t₁ fun σ x => List.Forall₂ (IsTruthOf σ x) es ls)
    (hls : ∀ l ∈ ls, t₁.program.IsTruth l) (h : imposeClause e ls guards t₁ = .ok u t')
    {P : Valuation → Prop} (hP : ∀ σ, (∀ e ∈ es, (e.value? σ).isSome) →
      (P σ ↔ (es.map (Expr.isTrue σ)).any id = true)) :
    t.Posts t' [] (Guarded guards P) := by
  obtain ⟨q, hq, rfl⟩ := build_eq_ok.1 h
  have hwf₁ := hd.wellFormed hwf
  have himposes := imposes_of_addClause hwf₁.program hls
    (fun g h => (hg g h).mono hd.defines.grows) hq
  refine Draft.Posts.after_defines hd (.of_program hwf₁ [] himposes) (fun x _ hx => ?_)
    (local_guarded hwf hg P)
  obtain ⟨hsome, hmap⟩ := forall₂_isTruthOf hx
  refine imp_congr_right fun _ => ?_
  rw [hP _ hsome, ← hmap]
  simp [AnyHold]

theorem posts_imposeLiteral (hlevel : ∀ level, deeper = some level → ExactLevel level)
    (he : e.Flat) (hwf : t.WellFormed) (hc : t.layout.Covers e)
    (hg : ∀ g ∈ guards, t.program.IsTruth g)
    (h : imposeLiteral limit deeper e guards t = .ok u t') :
    t.Posts t' [] (Guarded guards fun σ => e.isTrue σ = true) := by
  obtain ⟨l, t₁, h₁, h⟩ := bind_eq_ok.1 h
  obtain ⟨hl, hd⟩ := defines_literal (exact_lower hlevel e he) hwf hc h₁
  have hlist := hd.weaken (Q := fun σ x => List.Forall₂ (IsTruthOf σ x) [e] [l])
    fun x _ hx => .cons hx .nil
  exact posts_clause hwf hg hlist (List.forall_mem_singleton.2 hl) h fun σ _ => by simp

theorem posts_imposeOr (hlevel : ∀ level, deeper = some level → ExactLevel level)
    (hes : ∀ e ∈ es, e.Flat) (hwf : t.WellFormed) (hc : ∀ e ∈ es, t.layout.Covers e)
    (hg : ∀ g ∈ guards, t.program.IsTruth g)
    (h : impose limit deeper (.op .or es) guards t = .ok u t') :
    t.Posts t' [] (Guarded guards fun σ => (Expr.op .or es).holds σ = true) := by
  obtain ⟨ls, t₁, h₁, h⟩ := bind_eq_ok.1 h
  obtain ⟨hls, hd⟩ := defines_literals (fun e he => exact_lower hlevel e (hes e he)) hwf hc h₁
  refine posts_clause hwf hg hd hls h fun σ hsome => ?_
  show (Expr.op .or es).isTrue σ = true ↔ _
  rw [Expr.isTrue, value?_connective (.inr (.inl rfl)) (fun h => by cases h) hsome]
  show decide (ofTruth ((es.map (Expr.isTrue σ)).any id) ≠ 0) = true ↔ _
  rw [ofTruth_ne_zero]

theorem isTrue_xor (h : ∀ e ∈ es, (e.value? σ).isSome) :
    (Expr.op .xor es).isTrue σ = true ↔ (es.map (Expr.isTrue σ)).countP id % 2 = 1 := by
  obtain ⟨vs, hvs⟩ := valuesOf_eq_map_some h
  rw [map_isTrue hvs, List.countP_map, Expr.isTrue, Expr.value?, hvs, mapM_id_map_some]
  show decide (ofTruth _ ≠ 0) = true ↔ _
  rw [ofTruth_ne_zero, decide_eq_true_iff]
  rfl

/-- An odd number of the arguments is true whenever every guard is. -/
theorem posts_imposeXor (hlevel : ∀ level, deeper = some level → ExactLevel level)
    (hes : ∀ e ∈ es, e.Flat) (hwf : t.WellFormed) (hc : ∀ e ∈ es, t.layout.Covers e)
    (hg : ∀ g ∈ guards, t.program.IsTruth g)
    (h : impose limit deeper (.op .xor es) guards t = .ok u t') :
    t.Posts t' [] (Guarded guards fun σ => (Expr.op .xor es).holds σ = true) := by
  obtain ⟨ls, t₁, h₁, h⟩ := bind_eq_ok.1 h
  obtain ⟨hls, hd⟩ := defines_literals (fun e he => exact_lower hlevel e (hes e he)) hwf hc h₁
  obtain ⟨q, hq, rfl⟩ := build_eq_ok.1 h
  have hwf₁ := hd.wellFormed hwf
  have himposes := imposes_of_addParity hwf₁.program hls
    (fun g h => (hg g h).mono hd.defines.grows) hq
  refine Draft.Posts.after_defines hd (.of_program hwf₁ [] himposes) (fun x _ hx => ?_)
    (local_guarded hwf hg _)
  obtain ⟨hsome, hmap⟩ := forall₂_isTruthOf hx
  refine imp_congr_right fun _ => ?_
  show _ ↔ (Expr.op .xor es).isTrue _ = true
  rw [isTrue_xor hsome, ← hmap, List.countP_map]
  rfl

/-! ## Globals -/

/-- What the next level of decomposition lowers and imposes is exact. -/
structure PostsLevel (level : Deeper) : Prop where
  lower : ExactLevel level
  impose : ∀ e, e.Postable → PostsFor level.impose e

theorem posts_members {level : Deeper} {cs : List Expr} (hlevel : PostsLevel level)
    (hpost : ∀ c ∈ cs, c.Postable) (hwf : t.WellFormed) (hc : ∀ c ∈ cs, t.layout.Covers c)
    (hfresh : t.layout.Fresh (boundInAll cs)) (hg : ∀ g ∈ guards, t.program.IsTruth g)
    (h : nested (cs.forM fun c => level.impose c guards) t = .ok u t') :
    t.Posts t' (boundInAll cs) (Guarded guards fun σ => holdsAll σ cs = true) := by
  obtain ⟨s, hs, rfl⟩ := nested_eq_ok h
  have hposts := posts_forM (fun c hmem => hlevel.impose c (hpost c hmem))
    (hwf.atDepth (t.depth + 1) (max t.deepest (t.depth + 1))) hc hfresh hg hs
  exact ⟨hposts.wellFormed.atDepth _ _, hposts.layout, hposts.new, hposts.imposes⟩

theorem posts_imposeDecomposition (hlevel : ∀ level, deeper = some level → PostsLevel level)
    (hnative : ∀ args, g ≠ .plain .allDifferent args) (hpost : (Expr.global g).Postable)
    (hwf : t.WellFormed) (hc : t.layout.Covers (.global g))
    (hfresh : t.layout.Fresh (Expr.global g).bound) (hg : ∀ g ∈ guards, t.program.IsTruth g)
    (h : imposeDecomposition limit deeper g guards t = .ok u t') :
    t.Posts t' (Expr.global g).bound (Guarded guards fun σ => g.holds σ = true) := by
  obtain ⟨⟨level, cs⟩, t₁, h₁, h⟩ := bind_eq_ok.1 h
  obtain ⟨hdeeper, d, hd, rfl, rfl⟩ := expand_eq_ok h₁
  have hexpands := Draft.expands_of_postable hwf hpost hc hfresh hd
  rw [hexpands.withVars_eq] at h
  have hgrows := (t.grows_withVars d.newVars).program
  have hposts := posts_members (hlevel level hdeeper) hexpands.members
    ((hexpands.wellFormed hwf).logged g) hexpands.covers hexpands.fresh
    (fun g h => (hg g h).mono hgrows) h
  exact hexpands.posts hwf (local_allHold fun g h => (hg g h).column_lt)
    ⟨hposts.wellFormed, hposts.layout, hposts.new, hposts.imposes⟩ (hexpands.holds_iff hc hd hnative)

theorem posts_allDifferent (hlevel : ∀ level, deeper = some level → ExactLevel level)
    (hes : ∀ e ∈ es, e.Flat) (hwf : t.WellFormed) (hc : ∀ e ∈ es, t.layout.Covers e)
    (hg : ∀ g ∈ guards, t.program.IsTruth g)
    (h : imposeGlobal limit deeper (.plain .allDifferent es) guards t = .ok u t') :
    t.Posts t' [] (Guarded guards fun σ => (Global.plain .allDifferent es).holds σ = true) := by
  obtain ⟨forms, t₁, h₁, h⟩ := bind_eq_ok.1 h
  obtain ⟨hforms, hd⟩ := defines_affines (fun e he => exact_lower hlevel e (hes e he)) hwf hc h₁
  obtain ⟨q, hq, rfl⟩ := build_eq_ok.1 h
  have hwf₁ := hd.wellFormed hwf
  have himposes := imposes_of_enforceDistinct hwf₁.program
    (fun g h => (hg g h).mono hd.defines.grows) hforms hq
  refine Draft.Posts.after_defines hd (.of_program hwf₁ [] himposes) (fun x _ hx => ?_)
    (local_guarded hwf hg _)
  refine imp_congr_right fun _ => ?_
  have hsome : (valuesOf (t.layout.valuation x) es).all Option.isSome = true := by
    rw [hx]
    simp
  show _ ↔ ((valuesOf _ es).all Option.isSome && Expr.isTrue _ _) = true
  rw [hsome, Bool.true_and, isTrue_allDifferent_iff hx, List.Nodup, List.pairwise_map]

/-- A global under guards. -/
theorem posts_imposeGlobal (hlevel : ∀ level, deeper = some level → PostsLevel level)
    (hpost : (Expr.global g).Postable) (hwf : t.WellFormed) (hc : t.layout.Covers (.global g))
    (hfresh : t.layout.Fresh (Expr.global g).bound) (hg : ∀ g ∈ guards, t.program.IsTruth g)
    (h : imposeGlobal limit deeper g guards t = .ok u t') :
    t.Posts t' (Expr.global g).bound (Guarded guards fun σ => g.holds σ = true) := by
  have hexact : ∀ level, deeper = some level → ExactLevel level := fun level h =>
    (hlevel level h).lower
  have hflat : (∀ name args constraints newVars, g ≠ .defined name args constraints newVars) →
      (∀ args, g ≠ .plain .circuit args) → (Expr.global g).Flat := by
    intro hdefined hcircuit
    cases hpost with
    | of_flat h => exact h
    | circuit _ => exact absurd rfl (hcircuit _)
    | defined _ => exact absurd rfl (hdefined _ _ _ _)
  -- A global function is lowered for its value, which excludes nothing.
  have hfunction : (Expr.global g).Flat → (∀ σ, g.holds σ = true) →
      discard (lowerGlobal limit deeper g) t = .ok u t' →
      t.Posts t' (Expr.global g).bound (Guarded guards fun σ => g.holds σ = true) := by
    intro hg hholds hrun
    obtain ⟨n, hrun, -⟩ := map_eq_ok.1 hrun
    have hd := (exact_lowerGlobal hexact hg (fun e _ => exact_lower hexact e) hwf hc hrun).2
    exact (Draft.Posts.of_defines hwf _ hd).congr fun x _ => ⟨fun _ _ => hholds _, fun _ => trivial⟩
  cases g with
  | plain kind args =>
    cases kind with
    | allDifferent =>
      have hall := hflat nofun nofun
      rw [hall.bound_eq_nil]
      cases hall with
      | plain _ hargs => exact posts_allDifferent hexact hargs hwf (fun e he => hc.child he) hg h
    | min => exact hfunction (hflat nofun nofun) (fun _ => rfl) h
    | max => exact hfunction (hflat nofun nofun) (fun _ => rfl) h
    | _ => exact posts_imposeDecomposition hlevel nofun hpost hwf hc hfresh hg h
  | count args value => exact hfunction (hflat nofun nofun) (fun _ => rfl) h
  | cardinality args values counts =>
    exact posts_imposeDecomposition hlevel nofun hpost hwf hc hfresh hg h
  | named name args => exact posts_imposeDecomposition hlevel nofun hpost hwf hc hfresh hg h
  | defined name args constraints newVars =>
    exact posts_imposeDecomposition hlevel nofun hpost hwf hc hfresh hg h

/-! ## Expressions -/

theorem holds_of_asBoolLiteral (h : e.asBoolLiteral.isSome) :
    e.Flat ∧ e.bound = [] ∧ ∀ σ, e.holds σ = e.isTrue σ := by
  cases e with
  | var v => exact ⟨.var v, rfl, fun _ => rfl⟩
  | complement v => exact ⟨.complement v, rfl, fun _ => rfl⟩
  | _ => cases h

/-- Between two literals that stand for variables, an implication is a clause. -/
theorem posts_addImplication {a b : Expr} {k : Literal} {t₁ t₂ : Draft}
    (hlevel : ∀ level, deeper = some level → ExactLevel level) (ha : a.Flat) (hb : b.Flat)
    (hwf : t.WellFormed) (hca : t.layout.Covers a) (hcb : t.layout.Covers b)
    (h₁ : literal limit deeper a t = .ok l t₁) (h₂ : literal limit deeper b t₁ = .ok k t₂)
    (h₃ : build e (addImplication l k) t₂ = .ok u t') :
    t.Posts t' [] fun σ _ => a.isTrue σ = true → b.isTrue σ = true := by
  obtain ⟨hl, hd₁⟩ := defines_literal (exact_lower hlevel a ha) hwf hca h₁
  have hwf₁ := hd₁.wellFormed hwf
  obtain ⟨hk, hd₂⟩ := defines_literal (exact_lower hlevel b hb) hwf₁ (hd₁.covers hcb) h₂
  obtain ⟨q, hq, rfl⟩ := build_eq_ok.1 h₃
  have hwf₂ := hd₂.wellFormed hwf₁
  have himposes := imposes_of_addImplication hwf₂.program (hl.mono hd₂.defines.grows) hk hq
  refine Draft.Posts.after_defines (hd₁.trans hd₂) (.of_program hwf₂ [] himposes)
    (fun x _ hx => ?_) (hwf.local_valuation fun σ => a.isTrue σ = true → b.isTrue σ = true)
  rw [← hx.1.2, ← hx.2.2, decide_eq_true_iff, decide_eq_true_iff]

/-- The antecedent of an implication becomes one more guard. -/
theorem posts_underGuard {a b : Expr} {t₁ : Draft}
    (hlevel : ∀ level, deeper = some level → ExactLevel level) (ha : a.Flat)
    (ih : PostsFor (impose limit deeper) b) (hwf : t.WellFormed) (hca : t.layout.Covers a)
    (hcb : t.layout.Covers b) (hfresh : t.layout.Fresh b.bound)
    (hg : ∀ g ∈ guards, t.program.IsTruth g) (h₁ : literal limit deeper a t = .ok l t₁)
    (h₂ : impose limit deeper b (guards ++ [l]) t₁ = .ok u t') :
    t.Posts t' b.bound (Guarded guards fun σ => (!a.isTrue σ || b.holds σ) = true) := by
  obtain ⟨hl, hd⟩ := defines_literal (exact_lower hlevel a ha) hwf hca h₁
  have hguards : ∀ g ∈ guards ++ [l], t₁.program.IsTruth g := fun g hmem => by
    rcases List.mem_append.1 hmem with hmem | hmem
    · exact (hg g hmem).mono hd.defines.grows
    · exact List.mem_singleton.1 hmem ▸ hl
  have hposts := ih (hd.wellFormed hwf) (hd.covers hcb) (hd.layout ▸ hfresh) hguards h₂
  refine Draft.Posts.after_defines hd hposts (fun x _ hx => ?_) (local_guarded hwf hg _)
  show (AllHold (guards ++ [l]) x → _) ↔ (AllHold guards x → _)
  dsimp only
  rw [allHold_append, ← hx.2]
  by_cases hhold : l.Holds x <;> simp [hhold]

theorem posts_imposeImplies {a b : Expr} (hlevel : ∀ level, deeper = some level → ExactLevel level)
    (hpost : (Expr.op .implies [a, b]).Postable)
    (ih : b.Postable → PostsFor (impose limit deeper) b) :
    PostsFor (impose limit deeper) (.op .implies [a, b]) := by
  intro t t' guards u hwf hc hfresh hg h
  obtain ⟨ha, hb⟩ := hpost.of_implies
  have hca : t.layout.Covers a := hc.child (List.mem_cons_self)
  have hcb : t.layout.Covers b := hc.child (List.mem_cons_of_mem _ List.mem_cons_self)
  have hbound : (Expr.op .implies [a, b]).bound = b.bound := by
    show a.bound ++ (b.bound ++ []) = b.bound
    rw [ha.bound_eq_nil, List.nil_append, List.append_nil]
  rw [hbound] at hfresh ⊢
  rw [impose] at h
  split at h
  · rename_i hshort
    obtain ⟨hempty, -, hliteral⟩ := hshort
    obtain ⟨hbflat, hnil, hholds⟩ := holds_of_asBoolLiteral hliteral
    obtain ⟨l, t₁, h₁, h⟩ := bind_eq_ok.1 h
    obtain ⟨k, t₂, h₂, h⟩ := bind_eq_ok.1 h
    rw [hnil, List.isEmpty_iff.1 hempty]
    refine (posts_addImplication hlevel ha hbflat hwf hca hcb h₁ h₂ h).congr fun x _ => ?_
    show _ ↔ (AllHold [] x → (!a.isTrue _ || b.holds _) = true)
    rw [hholds]
    simp [Decidable.imp_iff_not_or]
  · obtain ⟨l, t₁, h₁, h₂⟩ := bind_eq_ok.1 h
    exact posts_underGuard hlevel ha (ih hb) hwf hca hcb hfresh hg h₁ h₂

/-- What is neither taken apart nor turned into a form of its own is imposed by its literal. -/
theorem posts_of_isTrue (hlevel : ∀ level, deeper = some level → ExactLevel level) (he : e.Flat)
    (hholds : ∀ σ, e.holds σ = e.isTrue σ) (hwf : t.WellFormed) (hc : t.layout.Covers e)
    (hg : ∀ g ∈ guards, t.program.IsTruth g)
    (h : imposeLiteral limit deeper e guards t = .ok u t') :
    t.Posts t' e.bound (Guarded guards fun σ => e.holds σ = true) := by
  rw [he.bound_eq_nil]
  refine (posts_imposeLiteral hlevel he hwf hc hg h).congr fun x _ => imp_congr_right fun _ => ?_
  dsimp only
  rw [hholds]

theorem posts_imposeConst {k : Int} (hwf : t.WellFormed) (hg : ∀ g ∈ guards, t.program.IsTruth g)
    (h : impose limit deeper (.const k) guards t = .ok u t') :
    t.Posts t' [] (Guarded guards fun σ => (Expr.const k).holds σ = true) := by
  rw [impose] at h
  split at h
  · rename_i hzero
    have hnone : t.Defines t fun σ x => List.Forall₂ (IsTruthOf σ x) [] [] :=
      .refl hwf.program fun x _ => .nil
    refine posts_clause hwf hg hnone (List.forall_mem_nil _) h fun σ _ => ?_
    simp [Expr.holds, hzero]
  · rename_i hne
    obtain ⟨-, rfl⟩ := pure_eq_ok.1 h
    exact .refl hwf [] fun x _ _ => decide_eq_true hne

theorem posts_imposeAll (hes : ∀ e ∈ es, PostsFor (impose limit deeper) e) (hwf : t.WellFormed)
    (hc : ∀ e ∈ es, t.layout.Covers e) (hfresh : t.layout.Fresh (boundInAll es))
    (hg : ∀ g ∈ guards, t.program.IsTruth g) (h : imposeAll limit deeper es guards t = .ok u t') :
    t.Posts t' (boundInAll es) (Guarded guards fun σ => holdsAll σ es = true) := by
  rw [imposeAll_eq_forM] at h
  exact posts_forM hes hwf hc hfresh hg h

/-- Only conjunctions and implications introduce variables. -/
theorem flat_op {o : Operator} (hpost : (Expr.op o es).Postable) (hand : o ≠ .and)
    (himplies : o = .implies → es.length ≠ 2) : (Expr.op o es).Flat := by
  cases hpost with
  | of_flat h => exact h
  | and _ => exact absurd rfl hand
  | implies _ _ => exact absurd rfl (himplies rfl)

/-- Conjunctions, disjunctions, parities and implications have rows of their own, and every other
operator is imposed by its literal. -/
theorem posts_imposeOp {o : Operator} (hlevel : ∀ level, deeper = some level → ExactLevel level)
    (ih : ∀ e ∈ es, e.Postable → PostsFor (impose limit deeper) e)
    (hpost : (Expr.op o es).Postable) : PostsFor (impose limit deeper) (.op o es) := by
  intro t t' guards u hwf hc hfresh hg h
  have hchild : ∀ e ∈ es, t.layout.Covers e := fun e he => hc.child he
  have hparts : (Expr.op o es).Flat → ∀ e ∈ es, e.Flat := fun h => by
    cases h with
    | op h => exact h
  have hliteral : o ≠ .and → (o = .implies → es.length ≠ 2) →
      (∀ σ, (Expr.op o es).holds σ = (Expr.op o es).isTrue σ) →
      imposeLiteral limit deeper (.op o es) guards t = .ok u t' →
      t.Posts t' (Expr.op o es).bound (Guarded guards fun σ => (Expr.op o es).holds σ = true) :=
    fun hand himplies hholds hrun =>
      posts_of_isTrue hlevel (flat_op hpost hand himplies) hholds hwf hc hg hrun
  cases o with
  | and => exact posts_imposeAll (fun e he => ih e he (hpost.of_and e he)) hwf hchild hfresh hg h
  | or =>
    have he := flat_op hpost nofun nofun
    rw [he.bound_eq_nil]
    exact posts_imposeOr hlevel (hparts he) hwf hchild hg h
  | xor =>
    have he := flat_op hpost nofun nofun
    rw [he.bound_eq_nil]
    exact posts_imposeXor hlevel (hparts he) hwf hchild hg h
  | implies =>
    rcases es with _ | ⟨a, _ | ⟨b, _ | ⟨c, rest⟩⟩⟩
    · exact hliteral nofun (fun _ => by simp) (fun _ => rfl) h
    · exact hliteral nofun (fun _ => by simp) (fun _ => rfl) h
    · exact posts_imposeImplies hlevel hpost
        (ih b (List.mem_cons_of_mem _ List.mem_cons_self)) hwf hc hfresh hg h
    · exact hliteral nofun (fun _ => by simp) (fun _ => rfl) h
  | _ => exact hliteral nofun nofun (fun _ => rfl) h

/-- Imposing a postable expression is exact. -/
theorem posts_impose (hlevel : ∀ level, deeper = some level → PostsLevel level) (e : Expr) :
    e.Postable → PostsFor (impose limit deeper) e := by
  have hexact : ∀ level, deeper = some level → ExactLevel level := fun level h =>
    (hlevel level h).lower
  induction e using Expr.induction with
  | const k => exact fun _ t t' guards u hwf _ _ hg h => posts_imposeConst hwf hg h
  | var v =>
    exact fun _ t t' guards u hwf hc _ hg h =>
      posts_of_isTrue hexact (.var v) (fun _ => rfl) hwf hc hg h
  | complement v =>
    exact fun _ t t' guards u hwf hc _ hg h =>
      posts_of_isTrue hexact (.complement v) (fun _ => rfl) hwf hc hg h
  | list es ih =>
    intro hpost t t' guards u hwf hc hfresh hg h
    exact posts_imposeAll (fun e he => ih e he (hpost.of_list e he)) hwf (fun e he => hc.child he)
      hfresh hg h
  | op o args ih => exact fun hpost => posts_imposeOp hexact ih hpost
  | compare c lhs rhs _ _ =>
    intro hpost t t' guards u hwf hc hfresh hg h
    have he : (Expr.compare c lhs rhs).Flat := by
      cases hpost with
      | of_flat h => exact h
    rw [he.bound_eq_nil]
    cases he with
    | compare hl hr =>
      exact posts_imposeComparison hexact hl hr hwf (hc.child (by simp [Expr.children]))
        (hc.child (by simp [Expr.children])) hg h
  | element array index _ _ =>
    intro hpost t t' guards u hwf hc hfresh hg h
    have he : (Expr.element array index).Flat := by
      cases hpost with
      | of_flat h => exact h
    exact posts_of_isTrue hexact he (fun _ => rfl) hwf hc hg h
  | global g _ _ =>
    exact fun hpost t t' guards u hwf hc hfresh hg h =>
      posts_imposeGlobal hlevel hpost hwf hc hfresh hg h

theorem postsLevel_below (limit levels : Nat) :
    ∀ level, below limit levels = some level → PostsLevel level :=
  forall_below (fun _ hlevel =>
    ⟨fun e he => exact_lower (fun level h => (hlevel level h).lower) e he,
      fun e he => posts_impose hlevel e he⟩) levels

theorem posts_imposeWithin (limit levels : Nat) {e : Expr} (he : e.Postable) :
    PostsFor (imposeWithin limit levels) e := by
  rw [imposeWithin_eq]
  exact posts_impose (postsLevel_below limit levels) e he

end Translate

end Linearization
