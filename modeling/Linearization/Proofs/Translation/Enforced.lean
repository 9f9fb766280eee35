import Linearization.Proofs.Translation.Constraint
import Linearization.Proofs.Translation.Outcomes

/-!
# Constraints that can be met

Imposing an expression excludes exactly the solutions in which the guards are true and the expression
cannot be met (`enforces_impose`). As for values, no shape is asked of the expression: every cycle
that is expanded on the way gets an order of its own.
-/

namespace Linearization

namespace Expr

variable {σ : Valuation} {e a b lhs rhs index : Expr} {es : List Expr} {o : Operator} {g : Global}
  {c : Comparison} {r : Outcome} {j k : Int}

/-! ## When a constraint is met -/

theorem exists_number_of_yields (h : e.Yields σ r) (hlist : ∀ es, e ≠ list es) :
    ∃ k, r = .number k := by
  cases h with
  | nil => exact absurd rfl (hlist _)
  | cons _ _ => exact absurd rfl (hlist _)
  | decomposed _ _ h =>
    obtain ⟨b, rfl⟩ := yields_all h
    exact ⟨_, rfl⟩
  | circuit _ h =>
    obtain ⟨b, rfl⟩ := yields_all h
    exact ⟨_, rfl⟩
  | _ => exact ⟨_, rfl⟩

theorem Yields.ne_list (h : e.Yields σ (.number k)) (es : List Expr) : e ≠ list es := by
  rintro rfl
  cases h

theorem meets_list_iff : (list es).Meets σ ↔ ∀ e ∈ es, e.Meets σ := by
  constructor
  · intro h
    cases h with
    | direct he _ _ => cases he
    | list h => exact h
  · exact .list

theorem meets_and_iff : (op .and es).Meets σ ↔ ∀ e ∈ es, e.Meets σ := by
  constructor
  · intro h
    cases h with
    | direct he _ _ => cases he
    | and h => exact h
  · exact .and

theorem meets_implies_iff : (op .implies [a, b]).Meets σ ↔
    ∃ k, a.Yields σ (.number k) ∧ (k ≠ 0 → b.Meets σ) := by
  constructor
  · intro h
    cases h with
    | direct he _ _ => cases he
    | implies ha hb => exact ⟨_, ha, hb⟩
  · rintro ⟨k, ha, hb⟩
    exact .implies ha hb

theorem meets_compare_iff : (compare c lhs rhs).Meets σ ↔ ∃ l r, lhs.Yields σ l ∧ rhs.Yields σ r ∧
    c.holdsItemwise l.items r.items = true := by
  constructor
  · intro h
    cases h with
    | direct he _ _ => cases he
    | compare hl hr h => exact ⟨_, _, hl, hr, h⟩
  · rintro ⟨l, r, hl, hr, h⟩
    exact .compare hl hr h

theorem meets_distinct_iff (hlength : ¬ es.length ≤ 1) :
    (global (.plain .allDifferent es)).Meets σ ↔ ∃ vs, YieldsAll σ es vs ∧ vs.Nodup := by
  constructor
  · intro h
    cases h with
    | direct he _ _ => cases he
    | distinct hargs h => exact ⟨_, hargs, h⟩
    | single h => exact absurd h hlength
    | function hg => cases hg
    | decomposed _ hdistinct _ _ => exact absurd rfl (hdistinct _)
  · rintro ⟨vs, hargs, h⟩
    exact .distinct hargs h

theorem holdsItemwise_numbers :
    c.holdsItemwise (Outcome.number j).items (Outcome.number k).items = true ↔ c.Holds j k := by
  show ((List.all [c.holds? (some j) (some k)] id) = true) ↔ _
  simp [Comparison.holds?]

/-- Between values that are no lists, a comparison is met if they can stand in the relation. -/
theorem meets_compare_numbers_iff (hl : ∀ es, lhs ≠ list es) (hr : ∀ es, rhs ≠ list es) :
    (compare c lhs rhs).Meets σ ↔
      ∃ j k, lhs.Yields σ (.number j) ∧ rhs.Yields σ (.number k) ∧ c.Holds j k := by
  rw [meets_compare_iff]
  constructor
  · rintro ⟨l, r, hyl, hyr, h⟩
    obtain ⟨j, rfl⟩ := exists_number_of_yields hyl hl
    obtain ⟨k, rfl⟩ := exists_number_of_yields hyr hr
    exact ⟨j, k, hyl, hyr, holdsItemwise_numbers.1 h⟩
  · rintro ⟨j, k, hyl, hyr, h⟩
    exact ⟨_, _, hyl, hyr, holdsItemwise_numbers.2 h⟩

end Expr

namespace Translate

open Ilp Literal Lowering

variable {t t' t₁ : Draft} {e lhs rhs other index : Expr} {es : List Expr} {g : Global}
  {guards : List Literal} {c : Comparison} {u : Unit} {l : Literal} {ls : List Literal}
  {limit : Nat} {deeper : Option Deeper} {σ : Valuation} {P : VarKey → Prop}
  {M : Valuation → Prop}

/-- Imposing the expression excludes exactly what does not meet it while the guards are true. -/
def EnforcesFor (f : Expr → List Literal → Translate Unit) (e : Expr) : Prop :=
  ∀ ⦃t t' : Draft⦄ ⦃guards : List Literal⦄ ⦃u : Unit⦄ ⦃P : VarKey → Prop⦄, t.WellFormed →
    t.Scopes P → e.Among P → (∀ l ∈ guards, t.program.IsTruth l) → f e guards t = .ok u t' →
    t.Enforces t' P guards fun σ => e.Meets σ

theorem enforces_forM {f : Expr → List Literal → Translate Unit} {u : PUnit}
    (hf : ∀ e ∈ es, EnforcesFor f e) (hwf : t.WellFormed) (hP : t.Scopes P)
    (hes : ∀ e ∈ es, e.Among P) (hg : ∀ l ∈ guards, t.program.IsTruth l)
    (h : (es.forM fun e => f e guards) t = .ok u t') :
    t.Enforces t' P guards fun σ => ∀ e ∈ es, e.Meets σ := by
  induction es generalizing t with
  | nil =>
    obtain ⟨-, rfl⟩ := pure_eq_ok.1 h
    exact .refl hwf fun σ => List.forall_mem_nil _
  | cons e es ih =>
    rw [List.forall_mem_cons] at hf hes
    rw [List.forM_eq_forM, List.forM_cons] at h
    obtain ⟨u', t₁, h₁, h₂⟩ := bind_eq_ok.1 h
    have hfirst := hf.1 hwf hP hes.1 hg h₁
    have hrest := ih hf.2 hfirst.wellFormed (hP.mono hfirst.grows) hes.2
      (fun l hl => (hg l hl).mono hfirst.grows.program) h₂
    exact (hfirst.trans hrest hg).congr fun σ => List.forall_mem_cons.symm

/-! ## Comparisons -/

theorem exists_program_of_imposePairs {pairs : List (Lowered × Lowered)}
    (h : imposePairs e c guards pairs t = .ok u t') : ∃ q, t' = { t with program := q } := by
  induction pairs generalizing t with
  | nil =>
    obtain ⟨-, rfl⟩ := pure_eq_ok.1 h
    exact ⟨t.program, rfl⟩
  | cons pair pairs ih =>
    obtain ⟨a, t₁, h₁, h⟩ := bind_eq_ok.1 h
    obtain ⟨b, t₂, h₂, h⟩ := bind_eq_ok.1 h
    obtain ⟨u', t₃, h₃, h⟩ := bind_eq_ok.1 h
    obtain ⟨_, -, rfl⟩ := build_eq_ok.1 h₁
    obtain ⟨_, -, rfl⟩ := build_eq_ok.1 h₂
    obtain ⟨_, -, rfl⟩ := build_eq_ok.1 h₃
    obtain ⟨q, rfl⟩ := ih h
    exact ⟨q, rfl⟩

/-- A comparison is enforced item by item. -/
theorem enforces_imposeItemwise (hlevel : ∀ level, deeper = some level → OffersLevel level)
    (hwf : t.WellFormed) (hP : t.Scopes P) (hl : lhs.Among P) (hr : rhs.Among P)
    (hg : ∀ l ∈ guards, t.program.IsTruth l)
    (h : imposeItemwise limit deeper c lhs rhs guards t = .ok u t') :
    t.Enforces t' P guards fun σ => (Expr.compare c lhs rhs).Meets σ := by
  obtain ⟨left, t₁, h₁, h⟩ := bind_eq_ok.1 h
  obtain ⟨right, t₂, h₂, h⟩ := bind_eq_ok.1 h
  obtain ⟨hleft, ho₁⟩ := offers_lower hlevel lhs hwf hP hl h₁
  obtain ⟨hright, ho₂⟩ := offers_lower hlevel rhs ho₁.wellFormed (hP.mono ho₁.grows) hr h₂
  have ho := ho₁.trans ho₂
  cases hpairs : left.pairUp right with
  | none =>
    rw [hpairs] at h
    cases throw_eq_ok.1 h
  | some pairs =>
    rw [hpairs] at h
    have hover : ∀ pair ∈ pairs, pair.1.Over t₂.program ∧ pair.2.Over t₂.program := fun pair h =>
      ⟨(hleft.mono ho₂.grows.program).items _ (Lowered.mem_pairUp hpairs pair h).1,
        hright.items _ (Lowered.mem_pairUp hpairs pair h).2⟩
    have hposts := posts_imposePairs ho.wellFormed
      (fun l hl => (hg l hl).mono ho.grows.program) hover h
    obtain ⟨q, rfl⟩ := exists_program_of_imposePairs h
    refine (ho.imposes hg hposts.imposes
      (C := fun a => c.holdsItemwise a.1.items a.2.items = true) fun y _ => ?_).congr fun σ => ?_
    · rw [Lowered.items_outcome, Lowered.items_outcome, holdsItemwise_pairUp _ hpairs]
    · rw [Expr.meets_compare_iff]
      constructor
      · rintro ⟨a, ⟨hl, hr⟩, hholds⟩
        exact ⟨a.1, a.2, hl, hr, hholds⟩
      · rintro ⟨l, r, hl, hr, hholds⟩
        exact ⟨(l, r), ⟨hl, hr⟩, hholds⟩

theorem ne_list_of_affine {form : Affine} (h : affine limit deeper e t = .ok form t')
    (es : List Expr) : e ≠ .list es := by
  rintro rfl
  obtain ⟨n, t₁, h₁, h₂⟩ := bind_eq_ok.1 h
  obtain ⟨ns, t₂, -, h₁⟩ := bind_eq_ok.1 h₁
  obtain ⟨rfl, rfl⟩ := pure_eq_ok.1 h₁
  obtain ⟨q, hq, -⟩ := build_eq_ok.1 h₂
  cases throw_eq_ok.1 hq

/-- Equality with an array element can be met where the item at some position that the index can
come to can come to the same as the other side. -/
theorem enforces_imposeElement (hlevel : ∀ level, deeper = some level → OffersLevel level)
    (hwf : t.WellFormed) (hP : t.Scopes P) (he : (Expr.element es index).Among P)
    (ho : other.Among P) (hg : ∀ l ∈ guards, t.program.IsTruth l)
    (h : imposeElement limit deeper e es index other guards t = .ok u t') :
    (∀ es, other ≠ .list es) ∧ t.Enforces t' P guards fun σ =>
      ∃ k, (Expr.element es index).Yields σ (.number k) ∧ other.Yields σ (.number k) := by
  obtain ⟨i, t₁, h₁, h⟩ := bind_eq_ok.1 h
  obtain ⟨items, t₂, h₂, h⟩ := bind_eq_ok.1 h
  obtain ⟨target, t₃, h₃, h⟩ := bind_eq_ok.1 h
  obtain ⟨hindex, ho₁⟩ := offers_affine (offers_lower hlevel index) hwf hP
    (he.child (by simp [Expr.children])) h₁
  obtain ⟨hitems, ho₂⟩ := offers_affines (fun d _ => offers_lower hlevel d) ho₁.wellFormed
    (hP.mono ho₁.grows) (fun d hd => he.child (List.mem_append_left _ hd)) h₂
  obtain ⟨htarget, ho₃⟩ := offers_affine (offers_lower hlevel other) ho₂.wellFormed
    (hP.mono (ho₁.grows.trans ho₂.grows)) ho h₃
  have hoff := (ho₁.trans ho₂).trans ho₃
  obtain ⟨q, hq, rfl⟩ := build_eq_ok.1 h
  have himposes := imposes_of_enforceElement hoff.wellFormed.program
    (fun l hl => (hg l hl).mono hoff.grows.program)
    (hindex.mono (Nat.le_trans ho₂.grows.program.size_le ho₃.grows.program.size_le)) htarget
    (fun item h => (hitems item h).mono ho₃.grows.program.size_le) hq
  have henforces : t.Enforces { t₃ with program := q } P guards fun σ =>
      ∃ a : (Int × List Int) × Int, ((index.Yields σ (.number a.1.1) ∧
        Expr.YieldsAll σ es a.1.2) ∧ other.Yields σ (.number a.2)) ∧
          itemAt? a.1.2 a.1.1 = some a.2 := by
    refine hoff.imposes hg himposes
      (C := fun a => itemAt? a.1.2 a.1.1 = some a.2) fun y _ => ?_
    rw [itemAt?_map, Option.map_eq_some_iff]
    exact imp_congr_right fun _ => exists_congr fun item => and_congr_right fun _ => eq_comm
  refine ⟨ne_list_of_affine h₃, henforces.congr fun σ => ⟨?_, ?_⟩⟩
  · rintro ⟨a, ⟨⟨hi, hvs⟩, hk⟩, hitem⟩
    exact ⟨a.2, .element hi hvs hitem, hk⟩
  · rintro ⟨k, helement, hk⟩
    cases helement with
    | element hi hvs hitem => exact ⟨((_, _), _), ⟨⟨hi, hvs⟩, hk⟩, hitem⟩

theorem enforces_imposeComparison (hlevel : ∀ level, deeper = some level → OffersLevel level)
    (hwf : t.WellFormed) (hP : t.Scopes P) (hl : lhs.Among P) (hr : rhs.Among P)
    (hg : ∀ l ∈ guards, t.program.IsTruth l)
    (h : imposeComparison limit deeper c lhs rhs guards t = .ok u t') :
    t.Enforces t' P guards fun σ => (Expr.compare c lhs rhs).Meets σ := by
  unfold imposeComparison at h
  split at h
  · obtain ⟨hlist, henforces⟩ := enforces_imposeElement hlevel hwf hP hl hr hg h
    refine henforces.congr fun σ => ?_
    rw [Expr.meets_compare_numbers_iff (element_ne_list _ _) hlist]
    constructor
    · rintro ⟨k, hk, hk'⟩
      exact ⟨k, k, hk, hk', rfl⟩
    · rintro ⟨k, _, hk, hk', rfl⟩
      exact ⟨k, hk, hk'⟩
  · obtain ⟨hlist, henforces⟩ := enforces_imposeElement hlevel hwf hP hr hl hg h
    refine henforces.congr fun σ => ?_
    rw [Expr.meets_compare_numbers_iff hlist (element_ne_list _ _)]
    constructor
    · rintro ⟨k, hk, hk'⟩
      exact ⟨k, k, hk', hk, rfl⟩
    · rintro ⟨k, _, hk, hk', rfl⟩
      exact ⟨k, hk', hk⟩
  · exact enforces_imposeItemwise hlevel hwf hP hl hr hg h

/-! ## Literals and connectives -/

/-- What is imposed by its literal is met if it can be true. -/
theorem meets_iff_canBe (he : e.IsDirect) : e.Meets σ ↔ CanBe σ e true := by
  constructor
  · intro h
    cases h with
    | direct _ hk hne => exact ⟨_, hk, decide_eq_true hne⟩
    | _ => cases he
  · rintro ⟨k, hk, hne⟩
    exact .direct he hk (of_decide_eq_true hne)

theorem enforces_clause {Y : Valuation → List Bool → Prop}
    (ho : t.Offers t₁ P Y fun x => ls.map fun l => decide (l.Holds x))
    (hls : ∀ l ∈ ls, t₁.program.IsTruth l) (hg : ∀ l ∈ guards, t.program.IsTruth l)
    (h : imposeClause e ls guards t₁ = .ok u t') :
    t.Enforces t' P guards fun σ => ∃ bs, Y σ bs ∧ true ∈ bs := by
  obtain ⟨q, hq, rfl⟩ := build_eq_ok.1 h
  have himposes := imposes_of_addClause ho.wellFormed.program hls
    (fun l hl => (hg l hl).mono ho.grows.program) hq
  refine ho.imposes hg himposes (C := fun bs => true ∈ bs) fun y _ => imp_congr_right fun _ => ?_
  simp [AnyHold]

theorem enforces_imposeLiteral (hlevel : ∀ level, deeper = some level → OffersLevel level)
    (hdirect : e.IsDirect) : EnforcesFor (imposeLiteral limit deeper) e := by
  intro t t' guards u P hwf hP he hg h
  obtain ⟨l, t₁, h₁, h⟩ := bind_eq_ok.1 h
  obtain ⟨hl, ho⟩ := offers_literal (offers_lower hlevel e) hwf hP he h₁
  refine (enforces_clause (ho.map fun b => [b]) (List.forall_mem_singleton.2 hl) hg h).congr
    fun σ => ?_
  rw [meets_iff_canBe hdirect]
  constructor
  · rintro ⟨_, ⟨b, hb, rfl⟩, htrue⟩
    exact List.mem_singleton.1 htrue ▸ hb
  · intro htrue
    exact ⟨_, ⟨true, htrue, rfl⟩, List.mem_singleton_self true⟩

theorem enforces_imposeConst {k : Int} : EnforcesFor (impose limit deeper) (.const k) := by
  intro t t' guards u P hwf hP he hg h
  have hmeets : ∀ σ, (Expr.const k).Meets σ ↔ k ≠ 0 := fun σ => by
    rw [meets_iff_canBe (e := .const k) trivial]
    constructor
    · rintro ⟨_, hk, hne⟩
      cases hk
      exact of_decide_eq_true hne
    · exact fun hne => ⟨k, .const k, decide_eq_true hne⟩
  rw [impose] at h
  split at h
  · rename_i hzero
    have hnone : t.Offers t P (fun _ bs => bs = []) fun x => ([] : List Literal).map fun l =>
        decide (l.Holds x) := .refl hwf (fun _ _ _ => rfl) fun _ _ _ _ _ => eq_comm
    refine (enforces_clause hnone (List.forall_mem_nil _) hg h).congr fun σ => ?_
    rw [hmeets]
    constructor
    · rintro ⟨_, rfl, htrue⟩
      cases htrue
    · exact fun hne => absurd hzero hne
  · rename_i hne
    obtain ⟨-, rfl⟩ := pure_eq_ok.1 h
    exact .refl hwf fun σ => (hmeets σ).2 hne

theorem enforces_imposeOr (hlevel : ∀ level, deeper = some level → OffersLevel level) :
    EnforcesFor (impose limit deeper) (.op .or es) := by
  intro t t' guards u P hwf hP he hg h
  obtain ⟨ls, t₁, h₁, h⟩ := bind_eq_ok.1 h
  obtain ⟨hls, ho⟩ := offers_literals (fun e _ => offers_lower hlevel e) hwf hP
    (fun e he' => he.child he') h₁
  refine (enforces_clause ho hls hg h).congr fun σ => ?_
  rw [meets_iff_canBe (e := .op .or es) trivial, canBe_connective_iff (.inr (.inl rfl)) nofun]
  simp [Operator.truth, Expr.children]

theorem enforces_imposeXor (hlevel : ∀ level, deeper = some level → OffersLevel level) :
    EnforcesFor (impose limit deeper) (.op .xor es) := by
  intro t t' guards u P hwf hP he hg h
  obtain ⟨ls, t₁, h₁, h⟩ := bind_eq_ok.1 h
  obtain ⟨hls, ho⟩ := offers_literals (fun e _ => offers_lower hlevel e) hwf hP
    (fun e he' => he.child he') h₁
  obtain ⟨q, hq, rfl⟩ := build_eq_ok.1 h
  have himposes := imposes_of_addParity ho.wellFormed.program hls
    (fun l hl => (hg l hl).mono ho.grows.program) hq
  have henforces : t.Enforces { t₁ with program := q } P guards fun σ =>
      ∃ bs, CanAllBe σ es bs ∧ bs.countP id % 2 = 1 := by
    refine ho.imposes hg himposes (C := fun bs => bs.countP id % 2 = 1) fun y _ =>
      imp_congr_right fun _ => ?_
    rw [List.countP_map]
    rfl
  refine henforces.congr fun σ => ?_
  rw [meets_iff_canBe (e := .op .xor es) trivial]
  constructor
  · rintro ⟨_, ⟨vs, hvs, rfl⟩, hodd⟩
    rw [List.countP_map] at hodd
    refine ⟨1, .op hvs ?_, rfl⟩
    exact congrArg (fun b => some (ofTruth b)) (decide_eq_true hodd)
  · rintro ⟨k, hk, hne⟩
    obtain ⟨vs, hvs, happly⟩ := yields_op_iff.1 hk
    refine ⟨_, ⟨vs, hvs, rfl⟩, ?_⟩
    cases happly
    rw [List.countP_map]
    rw [ofTruth_ne_zero] at hne
    exact of_decide_eq_true hne

theorem isDirect_of_asBoolLiteral (h : e.asBoolLiteral.isSome) (σ : Valuation) :
    e.IsDirect ∧ ∃ k, e.Yields σ (.number k) := by
  cases e with
  | var v => exact ⟨trivial, _, .var v⟩
  | complement v => exact ⟨trivial, _, .complement v⟩
  | _ => cases h

/-- Between literals that stand for variables, an implication is a clause. -/
theorem enforces_addImplication {a b : Expr} {k : Literal} {t₂ : Draft}
    (hlevel : ∀ level, deeper = some level → OffersLevel level) (hb : b.asBoolLiteral.isSome)
    (hwf : t.WellFormed) (hP : t.Scopes P) (hPa : a.Among P) (hPb : b.Among P)
    (h₁ : literal limit deeper a t = .ok l t₁) (h₂ : literal limit deeper b t₁ = .ok k t₂)
    (h₃ : build e (addImplication l k) t₂ = .ok u t') :
    t.Enforces t' P [] fun σ => (Expr.op .implies [a, b]).Meets σ := by
  obtain ⟨hl, ho₁⟩ := offers_literal (offers_lower hlevel a) hwf hP hPa h₁
  obtain ⟨hk, ho₂⟩ := offers_literal (offers_lower hlevel b) ho₁.wellFormed (hP.mono ho₁.grows)
    hPb h₂
  have ho := ho₁.trans ho₂
  obtain ⟨q, hq, rfl⟩ := build_eq_ok.1 h₃
  have himposes := imposes_of_addImplication ho.wellFormed.program
    (hl.mono ho₂.grows.program) hk hq
  have henforces : t.Enforces { t₂ with program := q } P [] fun σ =>
      ∃ c : Bool × Bool, (CanBe σ a c.1 ∧ CanBe σ b c.2) ∧ (c.1 = true → c.2 = true) := by
    refine ho.imposes (List.forall_mem_nil _) himposes (C := fun c => c.1 = true → c.2 = true)
      fun y _ => ?_
    simp
  refine henforces.congr fun σ => ?_
  obtain ⟨hdirect, m, hm⟩ := isDirect_of_asBoolLiteral hb σ
  rw [Expr.meets_implies_iff, meets_iff_canBe hdirect]
  constructor
  · rintro ⟨⟨_, truth⟩, ⟨⟨n, hn, rfl⟩, hb⟩, himplies⟩
    refine ⟨n, hn, fun hne => ?_⟩
    have htrue : truth = true := himplies (decide_eq_true hne)
    exact htrue ▸ hb
  · rintro ⟨n, hn, hb⟩
    by_cases hne : n ≠ 0
    · exact ⟨(_, true), ⟨⟨n, hn, rfl⟩, hb hne⟩, fun _ => rfl⟩
    · exact ⟨(_, _), ⟨⟨n, hn, rfl⟩, ⟨m, hm, rfl⟩⟩, fun htrue =>
        absurd (of_decide_eq_true htrue) hne⟩

/-- The antecedent of an implication becomes one more guard. -/
theorem enforces_underGuard {a b : Expr}
    (hlevel : ∀ level, deeper = some level → OffersLevel level)
    (ih : EnforcesFor (impose limit deeper) b) (hwf : t.WellFormed) (hP : t.Scopes P)
    (hPa : a.Among P) (hPb : b.Among P) (hg : ∀ l ∈ guards, t.program.IsTruth l)
    (h₁ : literal limit deeper a t = .ok l t₁)
    (h₂ : impose limit deeper b (guards ++ [l]) t₁ = .ok u t') :
    t.Enforces t' P guards fun σ => (Expr.op .implies [a, b]).Meets σ := by
  obtain ⟨hl, ho⟩ := offers_literal (offers_lower hlevel a) hwf hP hPa h₁
  have hguards : ∀ k ∈ guards ++ [l], t₁.program.IsTruth k := fun k hmem => by
    rcases List.mem_append.1 hmem with hmem | hmem
    · exact (hg k hmem).mono ho.grows.program
    · exact List.mem_singleton.1 hmem ▸ hl
  have hconsequent := ih ho.wellFormed (hP.mono ho.grows) hPb hguards h₂
  refine (ho.underGuards hg hconsequent (C := fun b => b = true) fun y _ => ?_).congr fun σ => ?_
  · rw [allHold_append]
    simp
  · rw [Expr.meets_implies_iff]
    constructor
    · rintro ⟨_, ⟨k, hk, rfl⟩, hb⟩
      exact ⟨k, hk, fun hne => hb (decide_eq_true hne)⟩
    · rintro ⟨k, hk, hb⟩
      exact ⟨_, ⟨k, hk, rfl⟩, fun htrue => hb (of_decide_eq_true htrue)⟩

theorem enforces_imposeImplies {a b : Expr}
    (hlevel : ∀ level, deeper = some level → OffersLevel level)
    (ih : EnforcesFor (impose limit deeper) b) :
    EnforcesFor (impose limit deeper) (.op .implies [a, b]) := by
  intro t t' guards u P hwf hP he hg h
  have hPa : a.Among P := he.child List.mem_cons_self
  have hPb : b.Among P := he.child (List.mem_cons_of_mem _ List.mem_cons_self)
  rw [impose] at h
  split at h
  · rename_i hshort
    obtain ⟨hempty, -, hliteral⟩ := hshort
    obtain ⟨l, t₁, h₁, h⟩ := bind_eq_ok.1 h
    obtain ⟨k, t₂, h₂, h⟩ := bind_eq_ok.1 h
    rw [List.isEmpty_iff.1 hempty]
    exact enforces_addImplication hlevel hliteral hwf hP hPa hPb h₁ h₂ h
  · obtain ⟨l, t₁, h₁, h₂⟩ := bind_eq_ok.1 h
    exact enforces_underGuard hlevel ih hwf hP hPa hPb hg h₁ h₂

/-! ## Globals -/

/-- What the next level of decomposition lowers and imposes. -/
structure EnforcesLevel (level : Deeper) : Prop where
  lower : OffersLevel level
  impose : ∀ e, EnforcesFor level.impose e

theorem enforces_imposeDecomposition
    (hlevel : ∀ level, deeper = some level → EnforcesLevel level)
    (hnative : ∀ args, g ≠ .plain .allDifferent args) (hwf : t.WellFormed) (hP : t.Scopes P)
    (he : (Expr.global g).Among P) (hg : ∀ l ∈ guards, t.program.IsTruth l)
    (h : imposeDecomposition limit deeper g guards t = .ok u t') :
    t.Enforces t' P guards fun σ => (Expr.global g).Meets σ := by
  obtain ⟨⟨level, cs⟩, t₁, h₁, h⟩ := bind_eq_ok.1 h
  obtain ⟨hdeeper, d, hd, rfl, rfl⟩ := expand_eq_ok h₁
  obtain ⟨s, hs, rfl⟩ := nested_eq_ok h
  obtain ⟨ι, P', valid, mix, hunfolds⟩ := Draft.exists_unfolds hwf hP he hd
  have hmembers := enforces_forM (fun c _ => (hlevel level hdeeper).impose c)
    ((hunfolds.opens.wellFormed.logged g).atDepth _ _) hunfolds.scopes hunfolds.members
    (fun l hl => (hg l hl).mono hunfolds.opens.grows.program) hs
  refine (hunfolds.opens.enforces hg hmembers.relabel).congr fun σ => ?_
  exact (hunfolds.meets hnative σ).symm

/-- All-different is imposed on the forms of its arguments, and excludes nothing if there is at most
one. -/
theorem enforces_allDifferent (hlevel : ∀ level, deeper = some level → OffersLevel level)
    (hwf : t.WellFormed) (hP : t.Scopes P) (hes : ∀ e ∈ es, e.Among P)
    (hg : ∀ l ∈ guards, t.program.IsTruth l)
    (h : imposeGlobal limit deeper (.plain .allDifferent es) guards t = .ok u t') :
    t.Enforces t' P guards fun σ => (Expr.global (.plain .allDifferent es)).Meets σ := by
  obtain ⟨forms, t₁, h₁, h⟩ := bind_eq_ok.1 h
  obtain ⟨hforms, ho⟩ := offers_affines (fun e _ => offers_lower hlevel e) hwf hP hes h₁
  obtain ⟨q, hq, rfl⟩ := build_eq_ok.1 h
  have himposes := imposes_of_enforceDistinct ho.wellFormed.program
    (fun l hl => (hg l hl).mono ho.grows.program) hforms hq
  by_cases hlength : es.length ≤ 1
  · have hshort : forms.length ≤ 1 := length_of_affines h₁ ▸ hlength
    have hapart : ∀ y : Assignment, forms.Pairwise fun a b => a.eval y ≠ b.eval y := fun y => by
      rcases forms with _ | ⟨form, _ | ⟨next, rest⟩⟩
      · exact .nil
      · exact List.pairwise_singleton _ form
      · simp at hshort
    exact (ho.imposes_trivial hg himposes fun y _ _ => hapart y).congr fun σ =>
      ⟨fun _ => .single hlength, fun _ => trivial⟩
  · refine (ho.imposes hg himposes (C := List.Nodup) fun y _ => ?_).congr fun σ =>
      (Expr.meets_distinct_iff hlength).symm
    rw [List.Nodup, List.pairwise_map]

/-- A global under guards. A global function only has to have a value. -/
theorem enforces_imposeGlobal (hlevel : ∀ level, deeper = some level → EnforcesLevel level)
    (hwf : t.WellFormed) (hP : t.Scopes P) (he : (Expr.global g).Among P)
    (hg : ∀ l ∈ guards, t.program.IsTruth l)
    (h : imposeGlobal limit deeper g guards t = .ok u t') :
    t.Enforces t' P guards fun σ => (Expr.global g).Meets σ := by
  have hoffers : ∀ level, deeper = some level → OffersLevel level := fun level h =>
    (hlevel level h).lower
  have hfunction : g.isBoolean = false → discard (lowerGlobal limit deeper g) t = .ok u t' →
      t.Enforces t' P guards fun σ => (Expr.global g).Meets σ := by
    intro hboolean hrun
    obtain ⟨n, hrun, -⟩ := map_eq_ok.1 hrun
    have ho := (offers_lowerGlobal hoffers (fun e _ => offers_lower hoffers e) hwf hP he hrun).2
    exact ho.enforces.congr fun σ => ⟨fun _ => .function hboolean, fun _ => trivial⟩
  cases g with
  | plain kind args =>
    cases kind with
    | allDifferent => exact enforces_allDifferent hoffers hwf hP (fun e h => he.child h) hg h
    | min => exact hfunction rfl h
    | max => exact hfunction rfl h
    | _ => exact enforces_imposeDecomposition hlevel nofun hwf hP he hg h
  | count args value => exact hfunction rfl h
  | cardinality args values counts =>
    exact enforces_imposeDecomposition hlevel nofun hwf hP he hg h
  | named name args => exact enforces_imposeDecomposition hlevel nofun hwf hP he hg h
  | defined name args constraints newVars =>
    exact enforces_imposeDecomposition hlevel nofun hwf hP he hg h

/-! ## Expressions -/

theorem enforces_imposeAll (ih : ∀ e ∈ es, EnforcesFor (impose limit deeper) e)
    (hwf : t.WellFormed) (hP : t.Scopes P) (hes : ∀ e ∈ es, e.Among P)
    (hg : ∀ l ∈ guards, t.program.IsTruth l) (h : imposeAll limit deeper es guards t = .ok u t') :
    t.Enforces t' P guards fun σ => ∀ e ∈ es, e.Meets σ := by
  rw [imposeAll_eq_forM] at h
  exact enforces_forM ih hwf hP hes hg h

theorem enforces_imposeOp {o : Operator}
    (hlevel : ∀ level, deeper = some level → OffersLevel level)
    (ih : ∀ e ∈ es, EnforcesFor (impose limit deeper) e) :
    EnforcesFor (impose limit deeper) (.op o es) := by
  have hliteral : (Expr.op o es).IsDirect → (∀ guards, impose limit deeper (.op o es) guards =
      imposeLiteral limit deeper (.op o es) guards) →
      EnforcesFor (impose limit deeper) (.op o es) := by
    intro hdirect heq t t' guards u P hwf hP he hg h
    exact enforces_imposeLiteral hlevel hdirect hwf hP he hg (heq guards ▸ h)
  cases o with
  | and =>
    intro t t' guards u P hwf hP he hg h
    refine (enforces_imposeAll ih hwf hP (fun e he' => he.child he') hg h).congr fun σ => ?_
    exact Expr.meets_and_iff.symm
  | or => exact enforces_imposeOr hlevel
  | xor => exact enforces_imposeXor hlevel
  | implies =>
    rcases es with _ | ⟨a, _ | ⟨b, _ | ⟨c, rest⟩⟩⟩
    · exact hliteral trivial fun _ => rfl
    · exact hliteral trivial fun _ => rfl
    · exact enforces_imposeImplies hlevel (ih b (List.mem_cons_of_mem _ List.mem_cons_self))
    · exact hliteral trivial fun _ => rfl
  | _ => exact hliteral trivial fun _ => rfl

/-- Imposing an expression excludes exactly the solutions in which the guards are true and it cannot
be met. -/
theorem enforces_impose (hlevel : ∀ level, deeper = some level → EnforcesLevel level) (e : Expr) :
    EnforcesFor (impose limit deeper) e := by
  have hoffers : ∀ level, deeper = some level → OffersLevel level := fun level h =>
    (hlevel level h).lower
  induction e using Expr.induction with
  | const k => exact enforces_imposeConst
  | var v =>
    have hdirect : (Expr.var v).IsDirect := trivial
    exact enforces_imposeLiteral hoffers hdirect
  | complement v =>
    have hdirect : (Expr.complement v).IsDirect := trivial
    exact enforces_imposeLiteral hoffers hdirect
  | list es ih =>
    intro t t' guards u P hwf hP he hg h
    refine (enforces_imposeAll ih hwf hP (fun e he' => he.child he') hg h).congr fun σ => ?_
    exact Expr.meets_list_iff.symm
  | op o args ih => exact enforces_imposeOp hoffers ih
  | compare c lhs rhs _ _ =>
    intro t t' guards u P hwf hP he hg h
    exact enforces_imposeComparison hoffers hwf hP (he.child (by simp [Expr.children]))
      (he.child (by simp [Expr.children])) hg h
  | element array index _ _ =>
    have hdirect : (Expr.element array index).IsDirect := trivial
    exact enforces_imposeLiteral hoffers hdirect
  | global g _ _ =>
    intro t t' guards u P hwf hP he hg h
    exact enforces_imposeGlobal hlevel hwf hP he hg h

theorem enforcesLevel_below (limit levels : Nat) :
    ∀ level, below limit levels = some level → EnforcesLevel level :=
  forall_below (fun _ hlevel => ⟨offers_lower fun level h => (hlevel level h).lower,
    enforces_impose hlevel⟩) levels

end Translate

end Linearization
