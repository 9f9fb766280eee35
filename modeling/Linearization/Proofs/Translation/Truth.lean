import Linearization.Proofs.Expr.Steady
import Linearization.Proofs.Translation.Enforced

/-!
# Constraints and their truth values

A constraint is either imposed or made a truth value of, and the two go different ways: lists have no
truth value, implications are imposed under a guard, and all-different is decomposed only for its
truth value. What is met and has a truth value can be true (`canBe_of_meets`). The converse fails if
a cycle stands in the arguments of an imposed all-different or cycle: imposing translates these
arguments once, but the truth value compares them pair by pair and translates them for each pair
anew. Otherwise what can be true is met (`meets_of_canBe`).
-/

namespace Linearization

namespace Expr

/-- No function is imposed as a constraint, and where all-different or a cycle is, its arguments are
fit. -/
inductive Constrains (Fit : List Expr → Prop) : Expr → Prop where
  | direct {e : Expr} (he : e.IsDirect) : Constrains Fit e
  | list {es : List Expr} (h : ∀ e ∈ es, Constrains Fit e) : Constrains Fit (list es)
  | and {args : List Expr} (h : ∀ e ∈ args, Constrains Fit e) : Constrains Fit (op .and args)
  | implies {a b : Expr} (hb : Constrains Fit b) : Constrains Fit (op .implies [a, b])
  | compare (c : Comparison) (lhs rhs : Expr) : Constrains Fit (compare c lhs rhs)
  | distinct {args : List Expr} (h : Fit args) : Constrains Fit (global (.plain .allDifferent args))
  | circuit {args : List Expr} (h : Fit args) : Constrains Fit (global (.plain .circuit args))
  | apart (args : List Expr) : Constrains Fit (global (.plain .allDifferentExceptZero args))
  | equal (args : List Expr) : Constrains Fit (global (.plain .allEqual args))
  | cardinality (args : List Expr) (values : List Int) (counts : List Expr) :
    Constrains Fit (global (.cardinality args values counts))
  | named (name : String) (args : List Expr) : Constrains Fit (global (.named name args))
  | defined {name : String} {args constraints : List Expr} {newVars : List Var}
    (h : ∀ e ∈ constraints, Constrains Fit e) :
    Constrains Fit (global (.defined name args constraints newVars))

end Expr

namespace Translate

open Literal

variable {σ : Valuation} {e a b lhs rhs : Expr} {es args : List Expr} {c : Comparison} {g : Global}
  {d : Decomposition} {m : Nat} {truth : Bool} {bs : List Bool} {vs : List Int} {k : Int}

/-! ## Truth values -/

theorem exists_canBe_iff : (∃ b, CanBe σ e b) ↔ ∃ k, e.Yields σ (.number k) := by
  constructor
  · rintro ⟨_, k, hk, -⟩
    exact ⟨k, hk⟩
  · rintro ⟨k, hk⟩
    exact ⟨_, k, hk, rfl⟩

theorem canAllBe_cons_iff : CanAllBe σ (e :: es) bs ↔
    ∃ b rest, bs = b :: rest ∧ CanBe σ e b ∧ CanAllBe σ es rest := by
  constructor
  · rintro ⟨_, hvs, rfl⟩
    obtain ⟨k, ks, hk, hks, rfl⟩ := Expr.yieldsAll_cons.1 hvs
    exact ⟨_, _, rfl, ⟨k, hk, rfl⟩, ks, hks, rfl⟩
  · rintro ⟨b, rest, rfl, hb, hrest⟩
    exact canAllBe_cons hb hrest

/-- The truth values of several expressions are independent of each other. -/
theorem exists_canAllBe_iff {T : Bool → Prop} :
    (∃ bs, CanAllBe σ es bs ∧ ∀ b ∈ bs, T b) ↔ ∀ e ∈ es, ∃ b, CanBe σ e b ∧ T b := by
  induction es with
  | nil =>
    exact ⟨fun _ => List.forall_mem_nil _, fun _ => ⟨[], ⟨[], .nil, rfl⟩, List.forall_mem_nil _⟩⟩
  | cons e es ih =>
    rw [List.forall_mem_cons, ← ih]
    constructor
    · rintro ⟨_, hall, hT⟩
      obtain ⟨b, rest, rfl, hb, hrest⟩ := canAllBe_cons_iff.1 hall
      obtain ⟨hTb, hTrest⟩ := List.forall_mem_cons.1 hT
      exact ⟨⟨b, hb, hTb⟩, rest, hrest, hTrest⟩
    · rintro ⟨⟨b, hb, hTb⟩, rest, hrest, hTrest⟩
      exact ⟨b :: rest, canAllBe_cons hb hrest, List.forall_mem_cons.2 ⟨hTb, hTrest⟩⟩

theorem canBe_and_iff : CanBe σ (.op .and es) true ↔ ∀ e ∈ es, CanBe σ e true := by
  rw [canBe_connective_iff (.inl rfl) nofun]
  have hall : ∀ bs : List Bool, Operator.and.truth bs = true ↔ ∀ b ∈ bs, b = true := fun bs =>
    List.all_eq_true
  simp only [hall, exists_canAllBe_iff, exists_eq_right]

theorem exists_canBe_and_iff : (∃ b, CanBe σ (.op .and es) b) ↔ ∀ e ∈ es, ∃ b, CanBe σ e b := by
  have hall : (∃ bs, CanAllBe σ es bs ∧ ∀ b ∈ bs, True) ↔ ∀ e ∈ es, ∃ b, CanBe σ e b ∧ True :=
    exists_canAllBe_iff
  simp only [implies_true, and_true] at hall
  rw [← hall]
  constructor
  · rintro ⟨_, hb⟩
    obtain ⟨bs, hbs, -⟩ := (canBe_connective_iff (.inl rfl) nofun).1 hb
    exact ⟨bs, hbs⟩
  · rintro ⟨bs, hbs⟩
    exact ⟨_, (canBe_connective_iff (.inl rfl) nofun).2 ⟨bs, hbs, rfl⟩⟩

/-- What a conjunction has if all its arguments have it, a conjunction that was taken apart has. -/
theorem all_iff_of_and {T : Expr → Prop} (hand : ∀ es, T (.op .and es) ↔ ∀ e ∈ es, T e) :
    T (Expr.all es) ↔ ∀ e ∈ es, T e := by
  have hoperands : ∀ e : Expr, (∀ a ∈ e.operands .and, T a) ↔ T e := by
    intro e
    cases e with
    | op o parts =>
      rw [Expr.operands]
      split
      · rename_i ho
        subst ho
        exact (hand parts).symm
      · exact List.forall_mem_singleton
    | _ => exact List.forall_mem_singleton
  show T (.op .and (es.flatMap (Expr.operands .and))) ↔ _
  rw [hand]
  constructor
  · intro h e he
    exact (hoperands e).1 fun a ha => h a (List.mem_flatMap.2 ⟨e, he, ha⟩)
  · intro h a ha
    obtain ⟨e, he, ha⟩ := List.mem_flatMap.1 ha
    exact (hoperands e).2 (h e he) a ha

theorem canBe_all_iff : CanBe σ (Expr.all es) true ↔ ∀ e ∈ es, CanBe σ e true :=
  all_iff_of_and (T := fun e => CanBe σ e true) fun _ => canBe_and_iff

theorem exists_canBe_all_iff : (∃ b, CanBe σ (Expr.all es) b) ↔ ∀ e ∈ es, ∃ b, CanBe σ e b :=
  all_iff_of_and (T := fun e => ∃ b, CanBe σ e b) fun _ => exists_canBe_and_iff

/-- A disjunction with one argument is imposed by making the argument true. -/
theorem meets_or_singleton : (Expr.op .or [e]).Meets σ ↔ CanBe σ e true := by
  rw [meets_iff_canBe (e := .op .or [e]) trivial, canBe_connective_iff (.inr (.inl rfl)) nofun]
  constructor
  · rintro ⟨_, hall, htruth⟩
    obtain ⟨b, _, rfl, hb, hrest⟩ := canAllBe_cons_iff.1 hall
    obtain ⟨vs, hvs, rfl⟩ := hrest
    cases Expr.yieldsAll_nil.1 hvs
    cases b with
    | true => exact hb
    | false => cases htruth
  · intro htrue
    exact ⟨[true], canAllBe_cons htrue ⟨[], .nil, rfl⟩, rfl⟩

/-! ## Comparisons, implications and decompositions -/

theorem meets_compare_iff_canBe (h : ∃ b, CanBe σ (.compare c lhs rhs) b) :
    (Expr.compare c lhs rhs).Meets σ ↔ CanBe σ (.compare c lhs rhs) true := by
  obtain ⟨k, hk⟩ := exists_canBe_iff.1 h
  cases hk with
  | compare hl hr =>
    rw [Expr.meets_compare_numbers_iff hl.ne_list hr.ne_list]
    constructor
    · rintro ⟨j, k, hj, hk, hholds⟩
      refine ⟨_, .compare hj hk, ?_⟩
      rw [ofTruth_ne_zero]
      exact decide_eq_true hholds
    · rintro ⟨_, hyields, htrue⟩
      cases hyields with
      | compare hj hk =>
        rw [ofTruth_ne_zero] at htrue
        exact ⟨_, _, hj, hk, of_decide_eq_true htrue⟩

theorem canBe_of_meets_compare (hl : ∀ es, lhs ≠ .list es) (hr : ∀ es, rhs ≠ .list es)
    (h : (Expr.compare c lhs rhs).Meets σ) : CanBe σ (.compare c lhs rhs) true := by
  obtain ⟨j, k, hj, hk, -⟩ := (Expr.meets_compare_numbers_iff hl hr).1 h
  exact (meets_compare_iff_canBe (exists_canBe_iff.2 ⟨_, .compare hj hk⟩)).1 h

theorem canBe_implies_iff : CanBe σ (.op .implies [a, b]) truth ↔
    ∃ p q, CanBe σ a p ∧ CanBe σ b q ∧ (!p || q) = truth := by
  rw [canBe_connective_iff (.inr (.inr rfl)) fun _ => rfl]
  constructor
  · rintro ⟨_, hall, htruth⟩
    obtain ⟨p, _, rfl, hp, hall⟩ := canAllBe_cons_iff.1 hall
    obtain ⟨q, _, rfl, hq, hall⟩ := canAllBe_cons_iff.1 hall
    obtain ⟨vs, hvs, rfl⟩ := hall
    cases Expr.yieldsAll_nil.1 hvs
    exact ⟨p, q, hp, hq, htruth⟩
  · rintro ⟨p, q, hp, hq, htruth⟩
    exact ⟨[p, q], canAllBe_cons hp (canAllBe_cons hq ⟨[], .nil, rfl⟩), htruth⟩

theorem canBe_implies_of_meets (h : ∃ t, CanBe σ (.op .implies [a, b]) t)
    (ih : (∃ t, CanBe σ b t) → b.Meets σ → CanBe σ b true)
    (hmeets : (Expr.op .implies [a, b]).Meets σ) : CanBe σ (.op .implies [a, b]) true := by
  obtain ⟨_, hsome⟩ := h
  obtain ⟨-, q, -, hq, -⟩ := canBe_implies_iff.1 hsome
  obtain ⟨k, hk, hb⟩ := Expr.meets_implies_iff.1 hmeets
  by_cases hne : k ≠ 0
  · have htrue : CanBe σ b true := ih ⟨q, hq⟩ (hb hne)
    exact canBe_implies_iff.2 ⟨_, true, ⟨k, hk, rfl⟩, htrue, Bool.or_true _⟩
  · refine canBe_implies_iff.2 ⟨_, q, ⟨k, hk, rfl⟩, hq, ?_⟩
    rw [decide_eq_false hne]
    rfl

theorem meets_implies_of_canBe (ih : CanBe σ b true → b.Meets σ)
    (h : CanBe σ (.op .implies [a, b]) true) : (Expr.op .implies [a, b]).Meets σ := by
  obtain ⟨_, q, ⟨k, hk, rfl⟩, hq, htrue⟩ := canBe_implies_iff.1 h
  refine .implies hk fun hne => ih ?_
  rw [decide_eq_true hne] at htrue
  have hqtrue : q = true := htrue
  exact hqtrue ▸ hq

/-- Another global than a cycle has the truth values of the conjunction of its members. -/
theorem canBe_decomposed_iff (hcircuit : ∀ args, g ≠ .plain .circuit args)
    (hd : g.decompose m = some d) :
    CanBe σ (.global g) truth ↔ CanBe σ (Expr.all d.constraints) truth :=
  exists_congr fun _ => and_congr_left fun _ => Expr.yields_decomposed_iff hcircuit hd

theorem canBe_of_meets_members (hcircuit : ∀ args, g ≠ .plain .circuit args)
    (hdistinct : ∀ args, g ≠ .plain .allDifferent args) (hd : g.decompose m = some d)
    (ih : ∀ c ∈ d.constraints, (∃ t, CanBe σ c t) → c.Meets σ → CanBe σ c true)
    (h : ∃ t, CanBe σ (.global g) t) (hmeets : (Expr.global g).Meets σ) :
    CanBe σ (.global g) true := by
  simp only [canBe_decomposed_iff hcircuit hd] at h ⊢
  rw [exists_canBe_all_iff] at h
  rw [Expr.meets_decomposed_iff hcircuit hdistinct hd] at hmeets
  exact canBe_all_iff.2 fun c hc => ih c hc (h c hc) (hmeets c hc)

theorem meets_members_of_canBe (hcircuit : ∀ args, g ≠ .plain .circuit args)
    (hdistinct : ∀ args, g ≠ .plain .allDifferent args) (hd : g.decompose m = some d)
    (ih : ∀ c ∈ d.constraints, CanBe σ c true → c.Meets σ) (h : CanBe σ (.global g) true) :
    (Expr.global g).Meets σ := by
  rw [canBe_decomposed_iff hcircuit hd, canBe_all_iff] at h
  exact .decomposed hcircuit hdistinct hd fun c hc => ih c hc (h c hc)

/-- The members of what is decomposed into comparisons, with a condition or without one. -/
inductive Conditional : Expr → Prop where
  | compare (c : Comparison) (lhs rhs : Expr) : Conditional (.compare c lhs rhs)
  | implies (a : Expr) (c : Comparison) (lhs rhs : Expr) :
    Conditional (.op .implies [a, .compare c lhs rhs])

theorem Conditional.canBe_of_meets (he : Conditional e) (h : ∃ t, CanBe σ e t)
    (hmeets : e.Meets σ) : CanBe σ e true := by
  cases he with
  | compare c lhs rhs => exact (meets_compare_iff_canBe h).1 hmeets
  | implies a c lhs rhs =>
    exact canBe_implies_of_meets h (fun hb => (meets_compare_iff_canBe hb).1) hmeets

theorem Conditional.meets_of_canBe (he : Conditional e) (h : CanBe σ e true) : e.Meets σ := by
  cases he with
  | compare c lhs rhs => exact (meets_compare_iff_canBe ⟨true, h⟩).2 h
  | implies a c lhs rhs =>
    exact meets_implies_of_canBe (fun hb => (meets_compare_iff_canBe ⟨true, hb⟩).2 hb) h

/-! ## All-different -/

/-- All-different can be true if every two arguments can differ. -/
theorem canBe_distinct_iff : CanBe σ (.global (.plain .allDifferent args)) true ↔
    ∀ c ∈ pairwise .differs args, CanBe σ c true := by
  rw [canBe_decomposed_iff (g := .plain .allDifferent args) nofun (m := 0) rfl, canBe_all_iff]

theorem canBe_differs_iff : CanBe σ (.differs a b) true ↔
    ∃ j k, a.Yields σ (.number j) ∧ b.Yields σ (.number k) ∧ j ≠ k := by
  constructor
  · rintro ⟨_, hyields, htrue⟩
    cases hyields with
    | compare hj hk =>
      rw [ofTruth_ne_zero] at htrue
      exact ⟨_, _, hj, hk, of_decide_eq_true htrue⟩
  · rintro ⟨j, k, hj, hk, hne⟩
    refine ⟨_, .compare hj hk, ?_⟩
    rw [ofTruth_ne_zero]
    exact decide_eq_true hne

theorem canBe_of_meets_distinct (h : (Expr.global (.plain .allDifferent args)).Meets σ) :
    CanBe σ (.global (.plain .allDifferent args)) true := by
  rw [canBe_distinct_iff]
  by_cases hlength : args.length ≤ 1
  · intro c hc
    rcases args with _ | ⟨a, _ | ⟨b, rest⟩⟩
    · cases hc
    · cases hc
    · simp at hlength
  · obtain ⟨vs, hargs, hnodup⟩ := (Expr.meets_distinct_iff hlength).1 h
    clear h hlength
    induction args generalizing vs with
    | nil => exact List.forall_mem_nil _
    | cons a args ih =>
      obtain ⟨k, ks, hk, hks, rfl⟩ := Expr.yieldsAll_cons.1 hargs
      obtain ⟨hnot, hnodup⟩ := List.nodup_cons.1 hnodup
      refine List.forall_mem_append.2 ⟨fun c hc => ?_, ih ks hks hnodup⟩
      obtain ⟨b, hb, rfl⟩ := List.mem_map.1 hc
      obtain ⟨j, hj, hyields⟩ := Expr.exists_yields_of_mem hks hb
      exact canBe_differs_iff.2 ⟨k, j, hk, hyields, fun heq => hnot (heq ▸ hj)⟩

/-- Arguments without cycles have the same values in every pair. -/
theorem exists_nodup_of_canBe (hsteady : ∀ e ∈ args, e.Steady)
    (hsome : ∀ e ∈ args, ∃ k, e.Yields σ (.number k))
    (h : ∀ c ∈ pairwise .differs args, CanBe σ c true) :
    ∃ vs, Expr.YieldsAll σ args vs ∧ vs.Nodup := by
  induction args with
  | nil => exact ⟨[], .nil, List.nodup_nil⟩
  | cons a args ih =>
    rw [List.forall_mem_cons] at hsteady hsome
    obtain ⟨hfirst, hrest⟩ := List.forall_mem_append.1 h
    obtain ⟨k, hk⟩ := hsome.1
    obtain ⟨vs, hvs, hnodup⟩ := ih hsteady.2 hsome.2 hrest
    refine ⟨k :: vs, Expr.yieldsAll_cons.2 ⟨k, vs, hk, hvs, rfl⟩,
      List.nodup_cons.2 ⟨fun hmem => ?_, hnodup⟩⟩
    obtain ⟨b, hb, hkb⟩ := Expr.exists_mem_of_yieldsAll hvs hmem
    obtain ⟨i, j, hi, hj, hne⟩ := canBe_differs_iff.1 (hfirst _ (List.mem_map_of_mem hb))
    have hleft := hi.unique hsteady.1 hk
    have hright := hj.unique (hsteady.2 b hb) hkb
    cases hleft
    cases hright
    exact hne rfl

theorem meets_distinct_of_canBe (hsteady : ∀ e ∈ args, e.Steady)
    (h : CanBe σ (.global (.plain .allDifferent args)) true) :
    (Expr.global (.plain .allDifferent args)).Meets σ := by
  rw [canBe_distinct_iff] at h
  rcases args with _ | ⟨a, _ | ⟨b, rest⟩⟩
  · exact .single (Nat.zero_le 1)
  · exact .single (Nat.le_refl 1)
  · have hpair : ∀ e ∈ b :: rest, ∃ j k, a.Yields σ (.number j) ∧ e.Yields σ (.number k) ∧ j ≠ k :=
      fun e he => canBe_differs_iff.1 (h _ (List.mem_append_left _ (List.mem_map_of_mem he)))
    obtain ⟨j, k, hj, -, -⟩ := hpair b List.mem_cons_self
    obtain ⟨vs, hvs, hnodup⟩ := exists_nodup_of_canBe hsteady
      (List.forall_mem_cons.2 ⟨⟨j, hj⟩, fun e he => by
        obtain ⟨-, k, -, hk, -⟩ := hpair e he
        exact ⟨k, hk⟩⟩) h
    exact .distinct hvs hnodup

/-! ## Cycles -/

theorem canBe_circuit_iff : CanBe σ (.global (.plain .circuit args)) truth ↔
    ∃ order, IsVisit args.length order ∧
      CanBe σ (Expr.all (tour (fun step => .const (order step)) args)) truth := by
  constructor
  · rintro ⟨k, hk, htruth⟩
    obtain ⟨order, horder, h⟩ := Expr.yields_order_iff.1 hk
    exact ⟨order, horder, k, h, htruth⟩
  · rintro ⟨order, horder, k, h, htruth⟩
    exact ⟨k, Expr.yields_order_iff.2 ⟨order, horder, h⟩, htruth⟩

/-- A cycle is met if it can be true: for the same order, member by member. -/
theorem canBe_of_meets_circuit (h : ∃ t, CanBe σ (.global (.plain .circuit args)) t)
    (hmeets : (Expr.global (.plain .circuit args)).Meets σ) :
    CanBe σ (.global (.plain .circuit args)) true := by
  have hconst : ∀ k es, Expr.const k ≠ .list es := nofun
  obtain ⟨order, horder, hmembers⟩ := Expr.meets_order_iff.1 hmeets
  refine canBe_circuit_iff.2 ⟨order, horder, canBe_all_iff.2 fun c hc => ?_⟩
  have hmeets := hmembers c hc
  obtain ⟨t, htruth⟩ := h
  obtain ⟨other, -, htruth⟩ := canBe_circuit_iff.1 htruth
  have hsome := exists_canBe_all_iff.1 ⟨t, htruth⟩
  cases args with
  | nil => cases hc
  | cons first rest =>
    -- The truth value of the fourth member shows that the first argument is no list.
    have hfirst : ∀ es, first ≠ .list es := by
      obtain ⟨k, hk⟩ := exists_canBe_iff.1 (hsome ((Expr.const (other 0)).equals first) (by
        simp [tour]))
      cases hk with
      | compare _ hr => exact hr.ne_list
    simp only [tour, List.cons_append, List.nil_append, List.mem_cons, List.mem_map] at hc
    rcases hc with rfl | rfl | rfl | rfl | ⟨step, -, rfl⟩
    · exact canBe_of_meets_distinct hmeets
    · exact canBe_of_meets_distinct hmeets
    · exact canBe_of_meets_compare (hconst _) (hconst _) hmeets
    · exact canBe_of_meets_compare (hconst _) hfirst hmeets
    · exact canBe_of_meets_compare (hconst _) (element_ne_list _ _) hmeets

theorem meets_circuit_of_canBe (hsteady : ∀ e ∈ args, e.Steady)
    (h : CanBe σ (.global (.plain .circuit args)) true) :
    (Expr.global (.plain .circuit args)).Meets σ := by
  obtain ⟨order, horder, h⟩ := canBe_circuit_iff.1 h
  refine .circuit horder fun c hc => ?_
  have htrue := canBe_all_iff.1 h c hc
  have hnodes : ∀ e ∈ (List.range args.length).map fun step => Expr.const (order step),
      e.Steady := fun e he => by
    obtain ⟨step, -, rfl⟩ := List.mem_map.1 he
    exact .const _
  cases args with
  | nil => cases hc
  | cons first rest =>
    simp only [tour, List.cons_append, List.nil_append, List.mem_cons, List.mem_map] at hc
    rcases hc with rfl | rfl | rfl | rfl | ⟨step, -, rfl⟩
    · exact meets_distinct_of_canBe hsteady htrue
    · exact meets_distinct_of_canBe hnodes htrue
    · exact (meets_compare_iff_canBe ⟨true, htrue⟩).2 htrue
    · exact (meets_compare_iff_canBe ⟨true, htrue⟩).2 htrue
    · exact (meets_compare_iff_canBe ⟨true, htrue⟩).2 htrue

/-! ## All constraints -/

/-- Where a constraint has a truth value and is met, it can be true. -/
theorem canBe_of_meets {Fit : List Expr → Prop} (he : e.Constrains Fit) (h : ∃ t, CanBe σ e t)
    (hmeets : e.Meets σ) : CanBe σ e true := by
  induction he with
  | direct he => exact (meets_iff_canBe he).1 hmeets
  | list _ _ =>
    obtain ⟨k, hk⟩ := exists_canBe_iff.1 h
    cases hk
  | and _ ih =>
    rw [exists_canBe_and_iff] at h
    rw [Expr.meets_and_iff] at hmeets
    exact canBe_and_iff.2 fun d hd => ih d hd (h d hd) (hmeets d hd)
  | implies _ ih => exact canBe_implies_of_meets h ih hmeets
  | compare c lhs rhs => exact (meets_compare_iff_canBe h).1 hmeets
  | distinct _ => exact canBe_of_meets_distinct hmeets
  | circuit _ => exact canBe_of_meets_circuit h hmeets
  | apart args =>
    refine canBe_of_meets_members (m := 0) nofun nofun rfl (fun c hc => ?_) h hmeets
    obtain ⟨a, -, b, -, rfl⟩ := mem_pairwise hc
    exact (Conditional.implies _ .ne a b).canBe_of_meets
  | equal args =>
    refine canBe_of_meets_members (m := 0) nofun nofun rfl (fun c hc => ?_) h hmeets
    obtain ⟨a, -, b, -, rfl⟩ := mem_consecutive hc
    exact (Conditional.compare .eq a b).canBe_of_meets
  | cardinality args values counts =>
    refine canBe_of_meets_members (m := 0) nofun nofun rfl (fun c hc => ?_) h hmeets
    obtain ⟨v, -, count, -, rfl⟩ := mem_zipWith hc
    exact (Conditional.compare .eq count _).canBe_of_meets
  | named name args =>
    obtain ⟨k, hk⟩ := exists_canBe_iff.1 h
    cases hk with
    | decomposed _ hd _ => cases hd
  | defined _ ih => exact canBe_of_meets_members (m := 0) nofun nofun rfl ih h hmeets

/-- Where no cycle stands in the arguments of a posted all-different or cycle, a constraint that can
be true is met. -/
theorem meets_of_canBe (he : e.Constrains fun args => ∀ a ∈ args, a.Steady)
    (h : CanBe σ e true) : e.Meets σ := by
  induction he with
  | direct he => exact (meets_iff_canBe he).2 h
  | list _ _ =>
    obtain ⟨k, hk⟩ := exists_canBe_iff.1 ⟨true, h⟩
    cases hk
  | and _ ih =>
    rw [canBe_and_iff] at h
    exact .and fun d hd => ih d hd (h d hd)
  | implies _ ih => exact meets_implies_of_canBe ih h
  | compare c lhs rhs => exact (meets_compare_iff_canBe ⟨true, h⟩).2 h
  | distinct hsteady => exact meets_distinct_of_canBe hsteady h
  | circuit hsteady => exact meets_circuit_of_canBe hsteady h
  | apart args =>
    refine meets_members_of_canBe (m := 0) nofun nofun rfl (fun c hc => ?_) h
    obtain ⟨a, -, b, -, rfl⟩ := mem_pairwise hc
    exact (Conditional.implies _ .ne a b).meets_of_canBe
  | equal args =>
    refine meets_members_of_canBe (m := 0) nofun nofun rfl (fun c hc => ?_) h
    obtain ⟨a, -, b, -, rfl⟩ := mem_consecutive hc
    exact (Conditional.compare .eq a b).meets_of_canBe
  | cardinality args values counts =>
    refine meets_members_of_canBe (m := 0) nofun nofun rfl (fun c hc => ?_) h
    obtain ⟨v, -, count, -, rfl⟩ := mem_zipWith hc
    exact (Conditional.compare .eq count _).meets_of_canBe
  | named name args =>
    obtain ⟨k, hk⟩ := exists_canBe_iff.1 ⟨true, h⟩
    cases hk with
    | decomposed _ hd _ => cases hd
  | defined _ ih => exact meets_members_of_canBe (m := 0) nofun nofun rfl ih h

end Translate

end Linearization
