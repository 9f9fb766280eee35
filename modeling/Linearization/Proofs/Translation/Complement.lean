import Linearization.Proofs.Translation.Exactness

/-!
# Logical complements

`Expr.not` swaps the operator of a comparison and compares any other constraint with zero. Posting
`e.not` leaves the assignments that posting `e` excludes, with one exception: a comparison of lists
is posted item by item, and so is the one with the complementary operator. Where only some of the
pairs of items are in the relation, both exclude the assignment
(`Draft.Reachable.permits_not_iff`).
-/

namespace Linearization

open Linearization.Valuation

variable {c : Comparison} {e lhs rhs : Expr} {es : List Expr} {σ : Valuation}

/-! ## Pairs of items -/

/-- The items of two sides that are compared with each other. The only item of a side is used
against every item of the other. -/
def itemPairs {α β : Type} : List α → List β → List (α × β)
  | [a], bs => bs.map (a, ·)
  | as, [b] => as.map (·, b)
  | as, bs => as.zip bs

/-- There are pairs of items, and the comparison is true of all of them or of none. -/
def Comparison.Unanimous (c : Comparison) (as bs : List (Option Int)) : Prop :=
  itemPairs as bs ≠ [] ∧ ∃ truth, ∀ pair ∈ itemPairs as bs, c.holds? pair.1 pair.2 = truth

theorem Lowered.itemPairs_pairUp {left right : Lowered} {pairs : List (Lowered × Lowered)}
    (f : Lowered → Option Int) (h : left.pairUp right = some pairs) :
    itemPairs (left.items.map f) (right.items.map f) = pairs.map (Prod.map f f) := by
  unfold Lowered.pairUp at h
  generalize left.items = ls at h ⊢
  generalize right.items = rs at h ⊢
  match ls, rs, h with
  | [l], rs, h =>
    cases h
    simp only [List.map_cons, List.map_nil, itemPairs, List.map_map]
    rfl
  | [], [r], h =>
    cases h
    rfl
  | l :: l' :: ls, [r], h =>
    cases h
    simp only [List.map_cons, List.map_nil, itemPairs, List.map_map]
    rfl
  | [], [], h =>
    cases h
    rfl
  | [], r :: r' :: rs, h => cases h
  | l :: l' :: ls, [], h => cases h
  | l :: l' :: ls, r :: r' :: rs, h =>
    dsimp only at h
    split at h
    · cases h
      show ((l :: l' :: ls).map f).zip ((r :: r' :: rs).map f) = _
      exact List.zip_map
    · cases h

theorem Comparison.holds?_negate {a b : Option Int} (ha : a.isSome) (hb : b.isSome) :
    c.negate.holds? a b = !c.holds? a b := by
  obtain ⟨v, rfl⟩ := Option.isSome_iff_exists.1 ha
  obtain ⟨w, rfl⟩ := Option.isSome_iff_exists.1 hb
  show decide (c.negate.Holds v w) = !decide (c.Holds v w)
  rw [← decide_not]
  exact decide_eq_decide.2 (c.holds_negate v w)

/-- The sides can be compared: their items pair up, and all the items in pairs have values. -/
structure Comparable (as bs : List (Option Int)) : Prop where
  holdsItemwise : ∀ c : Comparison,
    c.holdsItemwise as bs = (itemPairs as bs).all fun pair => c.holds? pair.1 pair.2
  isSome : ∀ pair ∈ itemPairs as bs, pair.1.isSome ∧ pair.2.isSome

/-- The complementary comparisons exclude each other, and one of them holds exactly if the pairs
agree. -/
theorem Comparable.holdsItemwise_negate_iff {as bs : List (Option Int)} (h : Comparable as bs) :
    (c.negate.holdsItemwise as bs = true ↔ ¬ c.holdsItemwise as bs = true) ↔ c.Unanimous as bs := by
  have hnegate : c.negate.holdsItemwise as bs = true ↔
      ∀ pair ∈ itemPairs as bs, c.holds? pair.1 pair.2 = false := by
    rw [h.holdsItemwise, List.all_eq_true]
    refine forall₂_congr fun pair hpair => ?_
    rw [Comparison.holds?_negate (h.isSome pair hpair).1 (h.isSome pair hpair).2, Bool.not_eq_true']
  rw [hnegate, h.holdsItemwise, List.all_eq_true]
  constructor
  · intro hiff
    refine ⟨fun hnil => ?_, ?_⟩
    · rw [hnil] at hiff
      exact hiff.1 (List.forall_mem_nil _) (List.forall_mem_nil _)
    · by_cases hall : ∀ pair ∈ itemPairs as bs, c.holds? pair.1 pair.2 = true
      · exact ⟨true, hall⟩
      · exact ⟨false, hiff.2 hall⟩
  · rintro ⟨hne, truth, htruth⟩
    obtain ⟨first, hfirst⟩ := List.exists_mem_of_ne_nil _ hne
    constructor
    · intro hnone hall
      cases (hnone first hfirst).symm.trans (hall first hfirst)
    · intro hnot pair hpair
      cases truth with
      | true => exact absurd htruth hnot
      | false => exact htruth pair hpair

/-! ## Constraints with a complement -/

theorem isSome_of_op {o : Operator} (h : ((Expr.op o es).value? σ).isSome) :
    ∀ d ∈ es, (d.value? σ).isSome := by
  obtain ⟨k, hk⟩ := Option.isSome_iff_exists.1 h
  rw [Expr.value?] at hk
  obtain ⟨vs, hvs, -⟩ := Option.bind_eq_some_iff.1 hk
  exact isSome_of_valuesOf (mapM_id_eq_some.1 hvs)

/-- Where an expression has a value, that it is zero is the complement of that it is true. -/
theorem holds_equals_zero (h : (e.value? σ).isSome) :
    (e.equals (.const 0)).holds σ = !e.isTrue σ := by
  obtain ⟨k, hk⟩ := Option.isSome_iff_exists.1 h
  have hzero : ∀ items, Expr.const 0 ≠ .list items := nofun
  rw [Expr.equals, holds_compare (ne_list_of_isSome h) hzero, Expr.isTrue, hk]
  show decide (k = 0) = !decide (k ≠ 0)
  rw [decide_not, Bool.not_not]

/-- A comparison, a constant, a truth value, or a connective of such, in which no variables are
introduced. -/
inductive Expr.Propositional : Expr → Prop where
  | const (k : Int) : Propositional (const k)
  | var {v : Var} (hv : v.isBool) : Propositional (var v)
  | complement {v : Var} (hv : v.isBool) : Propositional (complement v)
  | compare {c : Comparison} {lhs rhs : Expr} (hl : lhs.Flat) (hr : rhs.Flat) :
    Propositional (compare c lhs rhs)
  | connective {o : Operator} {args : List Expr} (ho : o.IsConnective)
    (h : ∀ e ∈ args, Propositional e) : Propositional (op o args)

namespace Expr.Propositional

theorem flat (h : e.Propositional) : e.Flat := by
  induction h with
  | const k => exact .const k
  | var hv => exact .var _
  | complement hv => exact .complement _
  | compare hl hr => exact .compare hl hr
  | connective _ _ ih => exact .op ih

theorem flat_not (h : e.Propositional) : e.not.Flat := by
  cases h with
  | const k => exact .const _
  | @var v hv =>
    rw [Expr.not, if_pos hv]
    exact .complement v
  | @complement v hv => exact .var v
  | compare hl hr => exact .compare hl hr
  | connective ho h => exact .compare (connective ho h).flat (.const 0)

theorem holds_eq_isTrue (h : e.Propositional) (hsome : (e.value? σ).isSome) :
    e.holds σ = e.isTrue σ := by
  induction h with
  | const k => rfl
  | var hv => rfl
  | complement hv => rfl
  | compare hl hr =>
    obtain ⟨ha, hb⟩ := isSome_compare.1 hsome
    rw [holds_compare (ne_list_of_isSome ha) (ne_list_of_isSome hb), isTrue_compare]
  | @connective o args ho h ih =>
    have hargs := isSome_of_op hsome
    have hsame : ∀ d ∈ args, d.holds σ = d.isTrue σ := fun d hd => ih d hd (hargs d hd)
    rcases ho with rfl | rfl | rfl
    · rw [isTrue_and hargs, Expr.holds, Bool.eq_iff_iff, holdsAll_iff, List.all_eq_true]
      exact forall₂_congr fun d hd => by rw [hsame d hd]
    · rfl
    · rcases args with _ | ⟨a, _ | ⟨b, _ | ⟨d, rest⟩⟩⟩
      · rfl
      · rfl
      · rw [Expr.holds, hsame b (by simp), ← (isTrue_implies hsome).2.2, Expr.implies]
      · rfl

theorem vars_not (h : e.Propositional) : e.not.vars = e.vars := by
  cases h with
  | const k => rfl
  | var hv => rw [Expr.not, if_pos hv]; rfl
  | complement hv => rfl
  | compare hl hr => rfl
  | @connective o args ho hargs =>
    show (Expr.compare .eq (.op o args) (.const 0)).vars = _
    simp [Expr.vars, varsOf, occurrencesInAll, Expr.occurrences]

end Expr.Propositional

namespace Translate

variable {t t' : Draft} {guards : List Literal} {u : Unit} {limit : Nat} {deeper : Option Deeper}
  {x : Assignment} {config : Config}

/-! ## What posting a comparison shows about its sides -/

theorem isSome_of_affineOf {d : Expr} {n : Lowered} {form : Affine}
    (h : build d (Lowering.affineOf n) t = .ok form t') (y : Assignment) :
    (n.value? y).isSome := by
  obtain ⟨q, hq, -⟩ := build_eq_ok.1 h
  cases n with
  | sequence items => cases throw_eq_ok.1 hq
  | _ => rfl

theorem isSome_of_imposePairs {pairs : List (Lowered × Lowered)}
    (h : imposePairs e c guards pairs t = .ok u t') (y : Assignment) :
    ∀ pair ∈ pairs, (pair.1.value? y).isSome ∧ (pair.2.value? y).isSome := by
  induction pairs generalizing t with
  | nil => exact List.forall_mem_nil _
  | cons pair pairs ih =>
    obtain ⟨a, t₁, h₁, h⟩ := bind_eq_ok.1 h
    obtain ⟨b, t₂, h₂, h⟩ := bind_eq_ok.1 h
    obtain ⟨_, t₃, -, h⟩ := bind_eq_ok.1 h
    exact List.forall_mem_cons.2 ⟨⟨isSome_of_affineOf h₁ y, isSome_of_affineOf h₂ y⟩, ih h⟩

theorem comparable_of_imposeItemwise
    (hlevel : ∀ level, deeper = some level → ExactLevel level) (hl : lhs.Flat) (hr : rhs.Flat)
    (hwf : t.WellFormed) (hcl : t.layout.Covers lhs) (hcr : t.layout.Covers rhs)
    (h : imposeItemwise limit deeper c lhs rhs guards t = .ok u t') (hx : t.program.Solves x) :
    Comparable (lhs.itemValues (t.layout.valuation x)) (rhs.itemValues (t.layout.valuation x)) := by
  obtain ⟨left, t₁, h₁, h⟩ := bind_eq_ok.1 h
  obtain ⟨right, t₂, h₂, h⟩ := bind_eq_ok.1 h
  obtain ⟨-, hd₁⟩ := exact_lower hlevel lhs hl hwf hcl h₁
  obtain ⟨-, hd₂⟩ := exact_lower hlevel rhs hr (hd₁.wellFormed hwf) (hd₁.covers hcr) h₂
  have hd := hd₁.trans hd₂
  cases hpairs : left.pairUp right with
  | none =>
    rw [hpairs] at h
    cases throw_eq_ok.1 h
  | some pairs =>
    rw [hpairs] at h
    obtain ⟨y, hxy, hy⟩ := hd.defines.complete x hx trivial
    obtain ⟨hleft, hright⟩ := hd.sound hy
    rw [hwf.valuation_congr hxy, hleft.itemValues, hright.itemValues]
    refine ⟨fun d => ?_, ?_⟩
    · rw [holdsItemwise_pairUp _ hpairs, Lowered.itemPairs_pairUp _ hpairs, List.all_map]
      rfl
    · rw [Lowered.itemPairs_pairUp _ hpairs]
      intro pair hpair
      obtain ⟨p, hp, rfl⟩ := List.mem_map.1 hpair
      exact isSome_of_imposePairs h y p hp

/-- Only an equality is posted in another way than item by item. -/
theorem imposeComparison_of_ne (hc : c ≠ .eq) :
    imposeComparison limit deeper c lhs rhs guards =
      imposeItemwise limit deeper c lhs rhs guards := by
  unfold imposeComparison
  split <;> first | exact absurd rfl hc | rfl

/-- Of a comparison and its complement one is posted item by item. -/
theorem comparable_of_impose {u' : Unit} {posted refused : Draft}
    (hlevel : ∀ level, deeper = some level → ExactLevel level) (hl : lhs.Flat) (hr : rhs.Flat)
    (hwf : t.WellFormed) (hcl : t.layout.Covers lhs) (hcr : t.layout.Covers rhs)
    (h : impose limit deeper (.compare c lhs rhs) guards t = .ok u posted)
    (hnot : impose limit deeper (.compare c.negate lhs rhs) guards t = .ok u' refused)
    (hx : t.program.Solves x) :
    Comparable (lhs.itemValues (t.layout.valuation x)) (rhs.itemValues (t.layout.valuation x)) := by
  by_cases hc : c = .eq
  · subst hc
    exact comparable_of_imposeItemwise hlevel hl hr hwf hcl hcr hnot hx
  · rw [Translate.impose, imposeComparison_of_ne hc] at h
    exact comparable_of_imposeItemwise hlevel hl hr hwf hcl hcr h hx

end Translate

namespace Draft

open Translate

variable {t t' posted refused : Draft} {u u' : Unit} {x : Assignment} {config : Config}

/-- Some solution gives the variables of the layout these values. -/
def Permits (t : Draft) (r : Layout) (σ : Valuation) : Prop :=
  ∃ x, t.program.Solves x ∧ ∀ v, r.Has v → r.valuation x v.toVarKey = σ v.toVarKey

theorem Reachable.permits_imposeExpr_iff (ht : t.Reachable config) (he : e.Flat)
    (hvars : ∀ v ∈ e.vars, t.layout.Has v) (h : imposeExpr config e [] t = .ok u t') :
    t'.Permits t.layout σ ↔ t.Permits t.layout σ ∧ e.holds σ = true := by
  have hcovers := Layout.covers_of_vars hvars
  have hwf := ht.wellFormed
  have hfresh : t.layout.Fresh e.bound := by
    rw [he.bound_eq_nil]
    exact .nil _
  have hposts :=
    posts_imposeExpr config (.of_flat he) hwf hcovers hfresh (List.forall_mem_nil _) h
  have hlocal := local_guarded hwf (List.forall_mem_nil _) fun σ => e.holds σ = true
  have hexact : ∀ {x}, t.program.Solves x →
      ((∃ y, AgreeBelow t.program.columns.size x y ∧ t'.program.Solves y) ↔
        e.holds (t.layout.valuation x) = true) := fun hx => by
    rw [hposts.imposes.exists_iff hlocal hx, Guarded]
    exact forall_prop_of_true (List.forall_mem_nil _)
  have hgrows := hposts.imposes.grows
  constructor
  · rintro ⟨y, hy, hσ⟩
    have hx := hgrows.solves hy
    refine ⟨⟨y, hx, hσ⟩, ?_⟩
    rw [← truthHasFrame e (hcovers.agree hσ)]
    exact (hexact hx).1 ⟨y, .refl _ y, hy⟩
  · rintro ⟨⟨x, hx, hσ⟩, hholds⟩
    rw [← truthHasFrame e (hcovers.agree hσ)] at hholds
    obtain ⟨y, hxy, hy⟩ := (hexact hx).2 hholds
    refine ⟨y, hy, ?_⟩
    rwa [← hwf.valuation_congr hxy]

/-- Where both are posted, the complement of a constraint holds exactly where the constraint does
not, unless the constraint is a comparison of lists of which some pairs are in the relation. -/
theorem Reachable.holds_not_iff (ht : t.Reachable config) (he : e.Propositional)
    (hvars : ∀ v ∈ e.vars, t.layout.Has v) (h : imposeExpr config e [] t = .ok u posted)
    (hnot : imposeExpr config e.not [] t = .ok u' refused) (hx : t.program.Solves x) :
    (e.not.holds (t.layout.valuation x) = true ↔ ¬ e.holds (t.layout.valuation x) = true) ↔
      ∀ c lhs rhs, e = .compare c lhs rhs → c.Unanimous (lhs.itemValues (t.layout.valuation x))
        (rhs.itemValues (t.layout.valuation x)) := by
  have hcovers := Layout.covers_of_vars hvars
  have hwf := ht.wellFormed
  rw [imposeExpr_eq] at h hnot
  have hlevel := exactLevel_below config.maxDecompositionDepth
    (config.maxDecompositionDepth - t.depth)
  have htruth : ∀ v : Var, v.isBool → v ∈ e.occurrences [] →
      t.layout.valuation x v.toVarKey = 0 ∨ t.layout.valuation x v.toVarKey = 1 := by
    intro v hv hmem
    have hadmits := hwf.admits hx (hcovers v hmem)
    rw [Domain.Admits, beq_iff_eq.1 hv] at hadmits
    simp only [Domain.lower, Domain.upper] at hadmits
    omega
  cases he with
  | const k =>
    refine iff_of_true ?_ fun c lhs rhs heq => by cases heq
    by_cases hk : k = 0 <;> simp [Expr.not, Expr.holds, hk]
  | @var v hv =>
    refine iff_of_true ?_ fun c lhs rhs heq => by cases heq
    have hcases := htruth v hv (by simp [Expr.occurrences])
    rw [Expr.not, if_pos hv]
    simp only [Expr.holds, Expr.isTrue, Expr.value?, Option.any_some, decide_eq_true_eq]
    omega
  | @complement v hv =>
    refine iff_of_true ?_ fun c lhs rhs heq => by cases heq
    have hcases := htruth v hv (by simp [Expr.occurrences])
    simp only [Expr.not, Expr.holds, Expr.isTrue, Expr.value?, Option.any_some, decide_eq_true_eq]
    omega
  | @compare c lhs rhs hl hr =>
    have hcl := hcovers.child (d := lhs) (by simp [Expr.children])
    have hcr := hcovers.child (d := rhs) (by simp [Expr.children])
    -- one of the two comparisons was posted item by item, so the sides pair up
    have hcomparable := comparable_of_impose hlevel hl hr hwf hcl hcr h hnot hx
    rw [Expr.not, Expr.holds, Expr.holds, hcomparable.holdsItemwise_negate_iff]
    constructor
    · rintro hunanimous c' lhs' rhs' heq
      cases heq
      exact hunanimous
    · exact fun hall => hall c lhs rhs rfl
  | @connective o args ho hargs =>
    refine iff_of_true ?_ fun c lhs rhs heq => by cases heq
    have hprop : (Expr.op o args).Propositional := .connective ho hargs
    have hcomparable := comparable_of_imposeItemwise hlevel hprop.flat (.const 0) hwf hcovers
      (fun v hv => by cases hv) hnot hx
    have hsome := (hcomparable.isSome _ (List.mem_singleton_self _)).1
    show ((Expr.op o args).equals (.const 0)).holds _ = true ↔ _
    rw [holds_equals_zero hsome, hprop.holds_eq_isTrue hsome, Bool.not_eq_true', Bool.not_eq_true]

/-- Posting the complement of a constraint leaves exactly the assignments that posting the
constraint excludes, unless the constraint is a comparison of lists: then both exclude the
assignments for which some but not all pairs are in the relation, and neither excludes one for
which there are no pairs. -/
theorem Reachable.permits_not_iff (ht : t.Reachable config) (he : e.Propositional)
    (hvars : ∀ v ∈ e.vars, t.layout.Has v) (h : imposeExpr config e [] t = .ok u posted)
    (hnot : imposeExpr config e.not [] t = .ok u' refused) (hσ : t.Permits t.layout σ) :
    (refused.Permits t.layout σ ↔ ¬ posted.Permits t.layout σ) ↔
      ∀ c lhs rhs, e = .compare c lhs rhs →
        c.Unanimous (lhs.itemValues σ) (rhs.itemValues σ) := by
  have hvars' : ∀ v ∈ e.not.vars, t.layout.Has v := by
    rw [he.vars_not]
    exact hvars
  rw [ht.permits_imposeExpr_iff he.flat_not hvars' hnot,
    ht.permits_imposeExpr_iff he.flat hvars h, and_iff_right hσ, and_iff_right hσ]
  obtain ⟨x, hx, hsame⟩ := hσ
  have hagree := (Layout.covers_of_vars hvars).agree hsame
  rw [← truthHasFrame e hagree, ← truthHasFrame e.not ((Layout.covers_of_vars hvars').agree hsame),
    ht.holds_not_iff he hvars h hnot hx]
  refine forall₄_congr fun c lhs rhs heq => ?_
  subst heq
  rw [itemValues_congr (hagree.child (d := lhs) (by simp [Expr.children])),
    itemValues_congr (hagree.child (d := rhs) (by simp [Expr.children]))]

/-- A disjunction of a comparison and a boolean variable. -/
theorem permits_not_iff_of_disjunction :
    let b : Var := ⟨⟨.declared 0, .bool⟩, "b"⟩
    let v : Var := ⟨⟨.declared 1, .int (-1) 2⟩, "v"⟩
    let e : Expr := .op .or [.compare .lt (.var v) (.const 1), .var b]
    let t := stateAfter (register v) (stateAfter (register b) (start 4096))
    let σ := t.layout.valuation fun i => if i = 1 then 2 else 0
    ∃ posted refused u u', imposeExpr {} e [] t = .ok u posted ∧
      imposeExpr {} e.not [] t = .ok u' refused ∧
      ((refused.Permits t.layout σ ↔ ¬ posted.Permits t.layout σ) ↔
        ∀ c lhs rhs, e = .compare c lhs rhs →
          c.Unanimous (lhs.itemValues σ) (rhs.itemValues σ)) := by
  intro b v e t σ
  have ht : t.Reachable {} :=
    .register (.register .start fun column hc => by cases hc) fun column hc => by cases hc
  have hcompare : (Expr.compare .lt (.var v) (.const 1)).Propositional :=
    .compare (.var v) (.const 1)
  have hvar : (Expr.var b).Propositional := .var rfl
  have he : e.Propositional := .connective (.inr (.inl rfl)) (by simp [hcompare, hvar])
  have hvars : ∀ w ∈ e.vars, t.layout.Has w := by decide
  have hσ : t.Permits t.layout σ := ⟨_, by decide, fun _ _ => rfl⟩
  have hrun : succeedsWith (imposeExpr {} e []) t (fun _ _ => true) = true := by decide +kernel
  have hrun' : succeedsWith (imposeExpr {} e.not []) t (fun _ _ => true) = true := by
    decide +kernel
  obtain ⟨u, posted, h, -⟩ := exists_of_succeedsWith hrun
  obtain ⟨u', refused, hnot, -⟩ := exists_of_succeedsWith hrun'
  exact ⟨posted, refused, u, u', h, hnot, ht.permits_not_iff he hvars h hnot hσ⟩

/-- Two variables compared with two ones, of which one is: neither the comparison nor its complement
permits that. -/
theorem permits_neither_of_lists :
    let v : Var := ⟨⟨.declared 0, .int 0 1⟩, "v"⟩
    let w : Var := ⟨⟨.declared 1, .int 0 1⟩, "w"⟩
    let e : Expr := .compare .eq (.list [.var v, .var w]) (.list [.const 1, .const 1])
    let t := stateAfter (register w) (stateAfter (register v) (start 4096))
    let σ := t.layout.valuation fun i => if i = 0 then 1 else 0
    ∃ posted refused u u', imposeExpr {} e [] t = .ok u posted ∧
      imposeExpr {} e.not [] t = .ok u' refused ∧ t.Permits t.layout σ ∧
      ¬ posted.Permits t.layout σ ∧ ¬ refused.Permits t.layout σ := by
  intro v w e t σ
  have ht : t.Reachable {} :=
    .register (.register .start fun column hc => by cases hc) fun column hc => by cases hc
  have he : e.Propositional := .compare (.list (by simp [Expr.Flat.var]))
    (.list (by simp [Expr.Flat.const]))
  have hvars : ∀ w ∈ e.vars, t.layout.Has w := by decide
  have hvars' : ∀ w ∈ e.not.vars, t.layout.Has w := by decide
  have hσ : t.Permits t.layout σ := ⟨_, by decide, fun _ _ => rfl⟩
  have hrun : succeedsWith (imposeExpr {} e []) t (fun _ _ => true) = true := by decide +kernel
  have hrun' : succeedsWith (imposeExpr {} e.not []) t (fun _ _ => true) = true := by
    decide +kernel
  obtain ⟨u, posted, h, -⟩ := exists_of_succeedsWith hrun
  obtain ⟨u', refused, hnot, -⟩ := exists_of_succeedsWith hrun'
  refine ⟨posted, refused, u, u', h, hnot, hσ, ?_, ?_⟩
  · rw [ht.permits_imposeExpr_iff he.flat hvars h, not_and]
    exact fun _ => by decide
  · rw [ht.permits_imposeExpr_iff he.flat_not hvars' hnot, not_and]
    exact fun _ => by decide

end Draft

end Linearization
