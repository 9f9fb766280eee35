import Linearization.Proofs.Ilp.Literals
import Linearization.Proofs.Translation.Distinct
import Linearization.Proofs.Translation.Symmetry

/-!
# Comparisons item by item

A comparison is posted item by item: a side that is no list counts as a list with one item, a single
item is reused at every place of the other side, and if one side is empty there is nothing to post.
Sides whose lengths differ, and are not one, are refused (`Draft.Reachable.comparison_exact`).
-/

namespace Linearization

open Linearization.Valuation Ilp Literal Lowering

variable {α : Type} {c : Comparison} {as bs : List (Option Int)} {a b : Option Int}

/-! ## Lists of values -/

/-- The item at a place of a list; a single item stands at every place. -/
def cycled (as : List α) (i : Nat) : Option α :=
  if as.length = 1 then as[0]? else as[i]?

theorem cycled_singleton (a : α) (i : Nat) : cycled [a] i = some a := rfl

theorem cycled_of_lt {as : List α} {i : Nat} (h : i < as.length) : cycled as i = as[i]? := by
  unfold cycled
  split
  · rw [show i = 0 by omega]
  · rfl

namespace Comparison

/-- The items at every place of the longer side are in the relation, where neither side is empty. -/
def HoldsAlong (c : Comparison) (as bs : List (Option Int)) : Prop :=
  as ≠ [] → bs ≠ [] → ∀ i < max as.length bs.length,
    ∃ a b, cycled as i = some (some a) ∧ cycled bs i = some (some b) ∧ c.Holds a b

theorem holds?_eq_true : c.holds? a b = true ↔ ∃ j k, a = some j ∧ b = some k ∧ c.Holds j k := by
  cases a <;> cases b <;> simp [holds?]

theorem holdsAlong_of_empty (h : as.length = 0 ∨ bs.length = 0) : c.HoldsAlong as bs := by
  intro has hbs
  rcases h with h | h
  · exact absurd (List.length_eq_zero_iff.1 h) has
  · exact absurd (List.length_eq_zero_iff.1 h) hbs

theorem holdsAlong_singleton_left (hbs : bs ≠ []) :
    c.HoldsAlong [a] bs ↔ ∀ b ∈ bs, c.holds? a b = true := by
  have hlength : max [a].length bs.length = bs.length :=
    Nat.max_eq_right (List.length_pos_iff.2 hbs)
  unfold HoldsAlong
  rw [List.forall_mem_iff_getElem, hlength]
  simp only [ne_eq, List.cons_ne_nil, not_false_eq_true, hbs, forall_const]
  refine forall₂_congr fun i hi => ?_
  rw [cycled_singleton, cycled_of_lt hi, List.getElem?_eq_getElem hi, holds?_eq_true]
  simp only [Option.some.injEq]

theorem holdsAlong_singleton_right (has : as ≠ []) :
    c.HoldsAlong as [b] ↔ ∀ a ∈ as, c.holds? a b = true := by
  have hlength : max as.length [b].length = as.length :=
    Nat.max_eq_left (List.length_pos_iff.2 has)
  unfold HoldsAlong
  rw [List.forall_mem_iff_getElem, hlength]
  simp only [ne_eq, List.cons_ne_nil, not_false_eq_true, has, forall_const]
  refine forall₂_congr fun i hi => ?_
  rw [cycled_singleton, cycled_of_lt hi, List.getElem?_eq_getElem hi, holds?_eq_true]
  simp only [Option.some.injEq]

theorem holdsAlong_of_length_eq (has : as ≠ []) (h : as.length = bs.length) :
    c.HoldsAlong as bs ↔ (as.zipWith c.holds? bs).all id = true := by
  have hbs : bs ≠ [] := fun hnil => has (List.length_eq_zero_iff.1 (by rw [h, hnil]; rfl))
  have hlength : (as.zipWith c.holds? bs).length = as.length := by
    rw [List.length_zipWith, h, Nat.min_self]
  unfold HoldsAlong
  rw [List.all_eq_true, List.forall_mem_iff_getElem, ← h, Nat.max_self]
  simp only [ne_eq, has, hbs, not_false_eq_true, forall_const, hlength]
  refine forall₂_congr fun i hi => ?_
  rw [cycled_of_lt hi, cycled_of_lt (h ▸ hi), List.getElem?_eq_getElem hi,
    List.getElem?_eq_getElem (h ▸ hi), List.getElem_zipWith, id_eq, holds?_eq_true]
  simp only [Option.some.injEq]

/-- For sides that pair up, comparing item by item is comparing along the longer side. -/
theorem holdsItemwise_iff (h : as.length = bs.length ∨ as.length = 1 ∨ bs.length = 1) :
    c.holdsItemwise as bs = true ↔ c.HoldsAlong as bs := by
  have hleft : ∀ {bs}, c.HoldsAlong [] bs := holdsAlong_of_empty (.inl rfl)
  have hright : ∀ {as}, c.HoldsAlong as [] := holdsAlong_of_empty (.inr rfl)
  rcases as with _ | ⟨a, _ | ⟨a', as⟩⟩ <;> rcases bs with _ | ⟨b, _ | ⟨b', bs⟩⟩
  -- The left side is empty.
  · exact iff_of_true rfl hleft
  · exact iff_of_true rfl hleft
  · simp at h
  -- The left side has one item.
  · exact iff_of_true rfl hright
  · rw [holdsAlong_singleton_left (List.cons_ne_nil b _), ← List.all_eq_true]
    rfl
  · rw [holdsAlong_singleton_left (List.cons_ne_nil b _), ← List.all_eq_true]
    rfl
  -- The left side has more.
  · simp at h
  · rw [holdsAlong_singleton_right (List.cons_ne_nil a _), ← List.all_eq_true]
    rfl
  · have hlength : (a :: a' :: as).length = (b :: b' :: bs).length := by simpa using h
    rw [holdsAlong_of_length_eq (List.cons_ne_nil a _) hlength]
    show (decide _ && _) = true ↔ _
    rw [decide_eq_true hlength, Bool.true_and]

end Comparison

/-- Sides do not pair up if their lengths differ and neither has a single item. -/
theorem Lowered.pairUp_eq_none_iff {left right : Lowered} : left.pairUp right = none ↔
    left.length ≠ right.length ∧ left.length ≠ 1 ∧ right.length ≠ 1 := by
  unfold pairUp length
  generalize left.items = ls, right.items = rs
  rcases ls with _ | ⟨l, _ | ⟨l', ls⟩⟩ <;> rcases rs with _ | ⟨r, _ | ⟨r', rs⟩⟩ <;> simp

theorem Lowered.length_of_pairUp {left right : Lowered} {pairs : List (Lowered × Lowered)}
    (h : left.pairUp right = some pairs) :
    left.length = right.length ∨ left.length = 1 ∨ right.length = 1 := by
  by_contra hlength
  rw [not_or, not_or] at hlength
  rw [pairUp_eq_none_iff.2 hlength] at h
  cases h

namespace Expr

variable {σ τ : Valuation} {e : Expr} {es : List Expr} {o o' : Outcome}

theorem length_of_yields_list (h : (list es).Yields σ o) : o.items.length = es.length := by
  induction es generalizing o with
  | nil =>
    cases h
    rfl
  | cons e es ih =>
    cases h with
    | cons _ hes => exact congrArg (· + 1) (ih hes)

/-- How many items an expression has is the same in all outcomes. -/
theorem length_items_eq (h : e.Yields σ o) (h' : e.Yields τ o') :
    o.items.length = o'.items.length := by
  by_cases hlist : ∃ es, e = list es
  · obtain ⟨es, rfl⟩ := hlist
    rw [length_of_yields_list h, length_of_yields_list h']
  · have hne : ∀ es, e ≠ list es := fun es heq => hlist ⟨es, heq⟩
    obtain ⟨k, rfl⟩ := exists_number_of_yields h hne
    obtain ⟨k', rfl⟩ := exists_number_of_yields h' hne
    rfl

/-- Between sides that pair up, a comparison is met if they can come to items that are in the
relation along the longer side. -/
theorem meets_compare_iff_holdsAlong {lhs rhs : Expr}
    (h : ∀ l r, lhs.Yields σ l → rhs.Yields σ r → l.items.length = r.items.length ∨
      l.items.length = 1 ∨ r.items.length = 1) :
    (compare c lhs rhs).Meets σ ↔
      ∃ l r, lhs.Yields σ l ∧ rhs.Yields σ r ∧ c.HoldsAlong l.items r.items := by
  rw [meets_compare_iff]
  exact exists₂_congr fun l r => and_congr_right fun hl => and_congr_right fun hr =>
    Comparison.holdsItemwise_iff (h l r hl hr)

end Expr

/-! ## Posting -/

namespace Translate

variable {t t₁ t₂ t' : Draft} {e lhs rhs : Expr} {left right : Lowered} {guards : List Literal}
  {config : Config} {pairs : List (Lowered × Lowered)} {u : Unit} {y : Assignment}

theorem failsOnly_build_ne {α : Type} (e : Expr) (action : Lowering α) :
    FailsOnly (fun error => ∀ n m, error ≠ .shapeMismatch n m) (build e action) t := by
  intro error s hrun n m
  unfold build at hrun
  cases haction : action t.program with
  | ok a q =>
    rw [haction] at hrun
    cases hrun
  | error cause q =>
    rw [haction] at hrun
    cases hrun
    cases cause <;> exact fun h => by cases h

theorem failsOnly_imposePairs_ne (e : Expr) (c : Comparison) (guards : List Literal)
    (pairs : List (Lowered × Lowered)) :
    FailsOnly (fun error => ∀ n m, error ≠ .shapeMismatch n m) (imposePairs e c guards pairs) t := by
  induction pairs generalizing t with
  | nil => exact .pure () t
  | cons pair pairs ih =>
    refine (failsOnly_build_ne e _).bind fun l t₁ _ => ?_
    refine (failsOnly_build_ne e _).bind fun r t₂ _ => ?_
    exact (failsOnly_build_ne e _).bind fun _ t₃ _ => ih

/-- The comparison is no equality with an array element. -/
def IsItemwise (c : Comparison) (lhs rhs : Expr) : Prop :=
  c = .eq → (∀ array index, lhs ≠ .element array index) ∧ ∀ array index, rhs ≠ .element array index

theorem imposeExpr_itemwise (hitems : IsItemwise c lhs rhs) :
    imposeExpr config (.compare c lhs rhs) guards = imposeItems config c lhs rhs guards := by
  have hnone : itemEquality? c lhs rhs = none := by
    cases c with
    | eq => exact itemEquality?_of_neither (hitems rfl).1 (hitems rfl).2
    | _ => rfl
  rw [imposeExpr_compare, hnone]

/-- Sides that do not pair up are refused once both have been lowered. -/
theorem imposeItems_of_none (hleft : lowerExpr config lhs t = .ok left t₁)
    (hright : lowerExpr config rhs t₁ = .ok right t₂) (h : left.pairUp right = none) :
    imposeItems config c lhs rhs guards t =
      .error (.shapeMismatch left.length right.length) t₂ := by
  unfold imposeItems
  rw [bind_of_ok hleft, bind_of_ok hright, h]
  rfl

theorem imposeItems_of_some (hleft : lowerExpr config lhs t = .ok left t₁)
    (hright : lowerExpr config rhs t₁ = .ok right t₂) (h : left.pairUp right = some pairs) :
    imposeItems config c lhs rhs guards t =
      imposePairs (.compare c lhs rhs) c guards pairs t₂ := by
  unfold imposeItems
  rw [bind_of_ok hleft, bind_of_ok hright, h]

/-- Lengths are reported exactly if the sides do not pair up. -/
theorem imposeItems_eq_shapeMismatch {n m : Nat} (hleft : lowerExpr config lhs t = .ok left t₁)
    (hright : lowerExpr config rhs t₁ = .ok right t₂) :
    (∃ s, imposeItems config c lhs rhs guards t = .error (.shapeMismatch n m) s) ↔
      n = left.length ∧ m = right.length ∧ n ≠ m ∧ n ≠ 1 ∧ m ≠ 1 := by
  constructor
  · rintro ⟨s, h⟩
    cases hpairs : left.pairUp right with
    | none =>
      rw [imposeItems_of_none hleft hright hpairs] at h
      cases h
      exact ⟨rfl, rfl, Lowered.pairUp_eq_none_iff.1 hpairs⟩
    | some pairs =>
      rw [imposeItems_of_some hleft hright hpairs] at h
      exact absurd rfl (failsOnly_imposePairs_ne _ c guards pairs _ s h n m)
  · rintro ⟨rfl, rfl, hlength⟩
    exact ⟨t₂, imposeItems_of_none hleft hright (Lowered.pairUp_eq_none_iff.2 hlength)⟩

theorem pairUp_of_imposeItems (hleft : lowerExpr config lhs t = .ok left t₁)
    (hright : lowerExpr config rhs t₁ = .ok right t₂)
    (h : imposeItems config c lhs rhs guards t = .ok u t') :
    ∃ pairs, left.pairUp right = some pairs ∧
      imposePairs (.compare c lhs rhs) c guards pairs t₂ = .ok u t' := by
  cases hpairs : left.pairUp right with
  | none =>
    rw [imposeItems_of_none hleft hright hpairs] at h
    cases h
  | some pairs =>
    rw [imposeItems_of_some hleft hright hpairs] at h
    exact ⟨pairs, rfl, h⟩

/-- What the pairs impose on the values of the items. -/
theorem extendsTo_imposePairs_iff (hwf : t.WellFormed) (hg : ∀ g ∈ guards, t.program.IsTruth g)
    (hleft : left.Over t.program) (hright : right.Over t.program)
    (hpairs : left.pairUp right = some pairs) (h : imposePairs e c guards pairs t = .ok u t')
    (hy : t.program.Solves y) :
    t.ExtendsTo t' y ↔ (∃ g ∈ guards, ¬ g.Holds y) ∨
      c.HoldsAlong (left.items.map (Lowered.value? y)) (right.items.map (Lowered.value? y)) := by
  have hover : ∀ pair ∈ pairs, pair.1.Over t.program ∧ pair.2.Over t.program := fun pair hmem =>
    ⟨hleft.items _ (Lowered.mem_pairUp hpairs pair hmem).1,
      hright.items _ (Lowered.mem_pairUp hpairs pair hmem).2⟩
  have hlocal : Local t.program.columns.size fun x =>
      pairs.all (fun pair => c.holds? (pair.1.value? x) (pair.2.value? x)) = true := by
    intro x y hxy
    dsimp only
    rw [List.all_eq_true, List.all_eq_true]
    refine forall₂_congr fun pair hmem => ?_
    rw [(hover pair hmem).1.value?_congr hxy, (hover pair hmem).2.value?_congr hxy]
  have himposes := (posts_imposePairs hwf hg hover h).imposes
  refine (himposes.guarded_iff hg hlocal hy).trans (or_congr_right ?_)
  rw [← holdsItemwise_pairUp _ hpairs, Comparison.holdsItemwise_iff]
  rw [List.length_map, List.length_map]
  exact Lowered.length_of_pairUp hpairs

end Translate

namespace Draft

open Translate

variable {t t₁ t₂ : Draft} {lhs rhs : Expr} {left right : Lowered} {guards : List Literal}
  {config : Config} {x : Assignment}

theorem offers_sides (hwf : t.WellFormed) (hvars : (Expr.compare c lhs rhs).AllVars t.Accepts)
    (hleft : lowerExpr config lhs t = .ok left t₁)
    (hright : lowerExpr config rhs t₁ = .ok right t₂) :
    left.Over t₂.program ∧ right.Over t₂.program ∧
      t.Offers t₂ t.accepted (fun σ o => lhs.Yields σ o.1 ∧ rhs.Yields σ o.2)
        fun y => (left.outcome y, right.outcome y) := by
  cases hvars with
  | compare hl hr =>
    obtain ⟨hover, ho₁⟩ := offers_lowerExpr config lhs hwf t.scopes_accepted hl hleft
    obtain ⟨hover', ho₂⟩ := offers_lowerExpr config rhs ho₁.wellFormed
      (t.scopes_accepted.mono ho₁.grows) hr hright
    exact ⟨hover.mono ho₂.grows.program, hover', ho₁.trans ho₂⟩

theorem length_of_yields_sides (hwf : t.WellFormed)
    (hvars : (Expr.compare c lhs rhs).AllVars t.Accepts)
    (hleft : lowerExpr config lhs t = .ok left t₁)
    (hright : lowerExpr config rhs t₁ = .ok right t₂) (hx : t.program.Solves x) {τ : Valuation}
    {l r : Expr.Outcome} (hl : lhs.Yields τ l) (hr : rhs.Yields τ r) :
    l.items.length = left.length ∧ r.items.length = right.length := by
  obtain ⟨-, -, hoffers⟩ := offers_sides hwf hvars hleft hright
  obtain ⟨y, -, hy⟩ := hoffers.extendsTo hwf hx
  obtain ⟨hyl, hyr⟩ := hoffers.sound _ y hy fun _ _ _ => rfl
  constructor
  · rw [Expr.length_items_eq hl hyl, Lowered.items_outcome, List.length_map]
    rfl
  · rw [Expr.length_items_eq hr hyr, Lowered.items_outcome, List.length_map]
    rfl

/-- A comparison that is no equality with an array element, posted from a draft of the translation.
If both sides can be lowered, it is refused for their lengths exactly if these differ and neither is
one. If it is posted, a solution of the lowered sides extends exactly if a guard is false in it or the
items at every place, a single item being reused at each, are in the relation; and a solution from
before extends exactly if a guard is false in it or the sides can come to lists of such items. If one
side is empty, every solution extends. -/
theorem Reachable.comparison_exact (ht : t.Reachable config) (hitems : IsItemwise c lhs rhs)
    (hvars : (Expr.compare c lhs rhs).AllVars t.Accepts) (hg : ∀ g ∈ guards, t.program.IsTruth g)
    (hleft : lowerExpr config lhs t = .ok left t₁)
    (hright : lowerExpr config rhs t₁ = .ok right t₂) :
    (∀ n m, (∃ s, imposeExpr config (.compare c lhs rhs) guards t =
        .error (.shapeMismatch n m) s) ↔
      n = left.length ∧ m = right.length ∧ n ≠ m ∧ n ≠ 1 ∧ m ≠ 1) ∧
    ∀ u t', imposeExpr config (.compare c lhs rhs) guards t = .ok u t' →
      (∀ y, t₂.program.Solves y → (t₂.ExtendsTo t' y ↔ (∃ g ∈ guards, ¬ g.Holds y) ∨
        c.HoldsAlong (left.items.map (Lowered.value? y)) (right.items.map (Lowered.value? y)))) ∧
      (∀ x, t.program.Solves x → (t.ExtendsTo t' x ↔ (∃ g ∈ guards, ¬ g.Holds x) ∨
        ∃ τ, t.Completes t.accepted (t.layout.valuation x) τ ∧
          ∃ l r, lhs.Yields τ l ∧ rhs.Yields τ r ∧ c.HoldsAlong l.items r.items)) ∧
      (left.length = 0 ∨ right.length = 0 → ∀ x, t.program.Solves x → t.ExtendsTo t' x) := by
  have hwf : t.WellFormed := ht.wellFormed
  have hrun : imposeExpr config (.compare c lhs rhs) guards = imposeItems config c lhs rhs guards :=
    imposeExpr_itemwise hitems
  obtain ⟨hover, hover', hoffers⟩ := offers_sides hwf hvars hleft hright
  refine ⟨fun n m => ?_, fun u t' h => ?_⟩
  · rw [hrun]
    exact imposeItems_eq_shapeMismatch hleft hright
  obtain ⟨pairs, hpairs, hposted⟩ := pairUp_of_imposeItems hleft hright (hrun ▸ h)
  have hlowered := fun y hy => extendsTo_imposePairs_iff (y := y) hoffers.wellFormed
    (fun g hmem => (hg g hmem).mono hoffers.grows.program) hover hover' hpairs hposted hy
  refine ⟨hlowered, fun x hx => ?_, fun hempty x hx => ?_⟩
  · have henforces := enforces_imposeExpr hwf t.scopes_accepted hvars hg h
    rw [henforces.extendsTo_iff hwf hg t.domains_accepted hx, allHold_imp_iff]
    refine or_congr_right (exists_congr fun τ => and_congr_right fun _ => ?_)
    refine Expr.meets_compare_iff_holdsAlong fun l r hl hr => ?_
    obtain ⟨hlength, hlength'⟩ := length_of_yields_sides hwf hvars hleft hright hx hl hr
    rw [hlength, hlength']
    exact Lowered.length_of_pairUp hpairs
  · obtain ⟨y, hxy, hy⟩ := hoffers.extendsTo hwf hx
    have hholds : c.HoldsAlong (left.items.map (Lowered.value? y))
        (right.items.map (Lowered.value? y)) :=
      Comparison.holdsAlong_of_empty (by rwa [List.length_map, List.length_map])
    obtain ⟨z, hyz, hz⟩ := (hlowered y hy).2 (.inr hholds)
    exact ⟨z, hxy.trans (hyz.mono hoffers.grows.program.size_le), hz⟩

/-- A variable, a relation and a constant are compared with one variable under a guard, and not with
two. -/
theorem comparison_exact_of_three :
    let b : Var := ⟨⟨.declared 0, .bool⟩, "b"⟩
    let v : Var := ⟨⟨.declared 1, .int (-2) 3⟩, "v"⟩
    let w : Var := ⟨⟨.declared 2, .int 0 4⟩, "w"⟩
    let three : Expr := .list [.var v, .compare .lt (.var v) (.var w), .const 2]
    let t := stateAfter (register w)
      (stateAfter (register v) (stateAfter (register b) (start 4096)))
    (∃ s, imposeExpr {} (.compare .le three (.list [.var w, .var v])) [.ofColumn 0] t =
      .error (.shapeMismatch 3 2) s) ∧
    ∃ left right t₁ t₂ u t', lowerExpr {} three t = .ok left t₁ ∧
      lowerExpr {} (.var w) t₁ = .ok right t₂ ∧
      imposeExpr {} (.compare .le three (.var w)) [.ofColumn 0] t = .ok u t' ∧
      ∀ y, t₂.program.Solves y → (t₂.ExtendsTo t' y ↔
        (∃ g ∈ [Literal.ofColumn 0], ¬ g.Holds y) ∨ Comparison.le.HoldsAlong
          (left.items.map (Lowered.value? y)) (right.items.map (Lowered.value? y))) := by
  intro b v w three t
  have ht : t.Reachable {} :=
    .register (.register (.register .start fun column hc => by cases hc)
      fun column hc => by cases hc) fun column hc => by cases hc
  have hv : t.Accepts v := ⟨Var.IsDeclared.inScope ⟨1, rfl⟩ _, .inl (by decide)⟩
  have hw : t.Accepts w := ⟨Var.IsDeclared.inScope ⟨2, rfl⟩ _, .inl (by decide)⟩
  have hthree : three.AllVars t.Accepts := .list (List.forall_mem_cons.2 ⟨.var hv,
    List.forall_mem_cons.2 ⟨.compare (.var hv) (.var hw), List.forall_mem_singleton.2 (.const 2)⟩⟩)
  have htwo : (Expr.list [.var w, .var v]).AllVars t.Accepts :=
    .list (List.forall_mem_cons.2 ⟨.var hw, List.forall_mem_singleton.2 (.var hv)⟩)
  have hg : ∀ g ∈ [Literal.ofColumn 0], t.program.IsTruth g :=
    List.forall_mem_singleton.2 ⟨_, rfl, by decide, by decide⟩
  have hitems : ∀ rhs, IsItemwise .le three rhs := fun rhs h => by cases h
  have hleft : succeedsWith (lowerExpr {} three) t (fun left t₁ => left.length == 3 &&
      succeedsWith (lowerExpr {} (.var w)) t₁ (fun _ _ => true) &&
      succeedsWith (lowerExpr {} (.list [.var w, .var v])) t₁ (fun right _ => right.length == 2)) =
        true := by
    decide +kernel
  have hrun : succeedsWith (imposeExpr {} (.compare .le three (.var w)) [.ofColumn 0]) t
      (fun _ _ => true) = true := by
    decide +kernel
  obtain ⟨left, t₁, h₁, hright⟩ := exists_of_succeedsWith hleft
  simp only [Bool.and_eq_true, beq_iff_eq] at hright
  obtain ⟨⟨hlength, hone⟩, hpair⟩ := hright
  obtain ⟨right, t₂, h₂, -⟩ := exists_of_succeedsWith hone
  obtain ⟨right', t₂', h₂', hlength'⟩ := exists_of_succeedsWith hpair
  obtain ⟨u, t', h, -⟩ := exists_of_succeedsWith hrun
  obtain ⟨hrefused, -⟩ := ht.comparison_exact (hitems _) (.compare hthree htwo) hg h₁ h₂'
  obtain ⟨-, hposted⟩ := ht.comparison_exact (hitems _) (.compare hthree (.var hw)) hg h₁ h₂
  refine ⟨(hrefused 3 2).2 ?_, left, right, t₁, t₂, u, t', h₁, h₂, h, (hposted u t' h).1⟩
  exact ⟨hlength.symm, (beq_iff_eq.1 hlength').symm, by decide, by decide, by decide⟩

end Draft

end Linearization
