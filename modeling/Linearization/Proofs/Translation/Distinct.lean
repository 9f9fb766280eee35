import Linearization.Proofs.Expr.Members
import Linearization.Proofs.Translation.Agreement

/-!
# All-different and its decomposition

All-different has a form of its own, so its decomposition is only posted where a constraint comes
with these members. Whatever the form permits, the decomposition permits. The form translates every
argument once, but the members translate an argument once for each pair that it stands in, so the
decomposition permits more if the conversions of an argument can differ: nothing else if no cycle
can be reached in the arguments, or if there is one pair at most
(`Draft.decompositions_exact`).
-/

namespace Linearization

namespace Translate

variable {t t' : Draft} {e : Expr} {args es : List Expr} {guards : List Literal} {config : Config}
  {u : Unit} {limit : Nat} {deeper : Option Deeper} {forms : List Affine} {σ : Valuation}

/-! ## Arguments -/

theorem ne_list_of_affines (h : affines limit deeper es t = .ok forms t') :
    ∀ e ∈ es, ∀ items, e ≠ .list items := by
  rw [affines_eq_mapM] at h
  induction es generalizing t forms with
  | nil => exact List.forall_mem_nil _
  | cons e es ih =>
    obtain ⟨form, t₁, rest, h₁, h₂, rfl⟩ := mapM_cons_eq_ok h
    exact List.forall_mem_cons.2 ⟨ne_list_of_affine h₁, ih h₂⟩

theorem ne_list_of_imposeDistinct
    (h : imposeExpr config (.global (.plain .allDifferent args)) guards t = .ok u t') :
    ∀ a ∈ args, ∀ items, a ≠ .list items := by
  rw [imposeExpr_eq] at h
  obtain ⟨forms, t₁, hforms, -⟩ := bind_eq_ok.1 h
  exact ne_list_of_affines hforms

/-! ## Pairs -/

/-- If all arguments differ, every two of them do. -/
theorem meets_differs_of_meets_distinct (h : (Expr.global (.plain .allDifferent args)).Meets σ) :
    ∀ c ∈ pairwise .differs args, c.Meets σ := by
  intro c hc
  have htrue := canBe_distinct_iff.1 (canBe_of_meets_distinct h) c hc
  obtain ⟨a, -, b, -, rfl⟩ := mem_pairwise hc
  exact (meets_compare_iff_canBe ⟨true, htrue⟩).2 htrue

/-- If every two arguments differ, all of them do, where each has the same value in all pairs. -/
theorem meets_distinct_of_meets_differs (hlist : ∀ a ∈ args, ∀ items, a ≠ .list items)
    (hsame : (∀ a ∈ args, a.Steady) ∨ args.length ≤ 2)
    (h : ∀ c ∈ pairwise .differs args, c.Meets σ) :
    (Expr.global (.plain .allDifferent args)).Meets σ := by
  have htrue : ∀ c ∈ pairwise .differs args, CanBe σ c true := by
    intro c hc
    have hmeets := h c hc
    obtain ⟨a, ha, b, hb, rfl⟩ := mem_pairwise hc
    exact canBe_of_meets_compare (hlist a ha) (hlist b hb) hmeets
  rcases hsame with hsteady | hlength
  · exact meets_distinct_of_canBe hsteady (canBe_distinct_iff.2 htrue)
  · rcases args with _ | ⟨a, _ | ⟨b, _ | ⟨c, rest⟩⟩⟩
    · exact .single (Nat.zero_le 1)
    · exact .single (Nat.le_refl 1)
    · have hpair : CanBe σ (.differs a b) true := htrue _ (by simp [pairwise])
      obtain ⟨j, k, hj, hk, hne⟩ := canBe_differs_iff.1 hpair
      have hvalues : Expr.YieldsAll σ [a, b] [j, k] := .cons hj (.cons hk .nil)
      exact .distinct hvalues (by simpa using hne)
    · simp at hlength

end Translate

namespace Draft

open Translate

variable {config : Config} {t native split : Draft} {args : List Expr} {guards : List Literal}
  {x : Assignment}

/-- The variable is registered or can be: no decomposition that is yet to come introduces it, and
its domain has values. -/
def Accepts (t : Draft) (v : Var) : Prop :=
  v.InScope t.program.columns.size ∧ (t.layout.Has v ∨ v.domain.lower ≤ v.domain.upper)

/-- From a draft of the translation, all-different is posted in its own form, and as a constraint
that comes with the members of its decomposition. -/
structure PostsBoth (config : Config) (t native split : Draft) (args : List Expr)
    (guards : List Literal) : Prop where
  reachable : t.Reachable config
  accepts : (Expr.global (.plain .allDifferent args)).AllVars t.Accepts
  truth : ∀ l ∈ guards, t.program.IsTruth l
  native : ∃ u, imposeExpr config (.global (.plain .allDifferent args)) guards t = .ok u native
  split : ∃ name n d u, (Global.plain .allDifferent args).decompose n = some d ∧
    imposeExpr config (.global (.defined name args d.constraints d.newVars)) guards t = .ok u split

/-- The scope of everything that the draft accepts. -/
def accepted (t : Draft) : VarKey → Prop := fun k => t.Accepts ⟨k, ""⟩

theorem scopes_accepted (t : Draft) : t.Scopes t.accepted := fun _ hv => hv.1

theorem domains_accepted (t : Draft) (v : Var) (hv : t.accepted v.toVarKey)
    (hnot : ¬ t.layout.Has v) : v.domain.lower ≤ v.domain.upper := hv.2.resolve_left hnot

theorem Offers.extendsTo {α : Type} {t' : Draft} {Y : Valuation → α → Prop} {f : Assignment → α}
    (h : t.Offers t' t.accepted Y f) (hwf : t.WellFormed) (hx : t.program.Solves x) :
    t.ExtendsTo t' x := by
  have hdomain := t.domains_accepted
  have henforces : t.Enforces t' t.accepted [] fun _ => True := h.enforces
  rw [henforces.extendsTo_iff hwf (List.forall_mem_nil _) hdomain hx]
  intro _
  obtain ⟨τ, hτ⟩ := exists_completes hdomain
  exact ⟨τ, hτ, trivial⟩

theorem PostsBoth.enforces (h : PostsBoth config t native split args guards) :
    (t.Enforces native t.accepted guards fun σ =>
      (Expr.global (.plain .allDifferent args)).Meets σ) ∧
    t.Enforces split t.accepted guards fun σ => ∀ c ∈ pairwise .differs args, c.Meets σ := by
  have hwf := h.reachable.wellFormed
  have hscopes := t.scopes_accepted
  have hamong : (Expr.global (.plain .allDifferent args)).Among t.accepted := h.accepts
  obtain ⟨u, hnative⟩ := h.native
  obtain ⟨name, n, d, u', hd, hsplit⟩ := h.split
  cases hd
  have hmembers : ∀ c ∈ pairwise .differs args, c.Among t.accepted :=
    hamong.decompose (n := n) rfl (fun _ hv => hv) (List.forall_mem_nil _)
  have hdefined : (Expr.global (.defined name args (pairwise .differs args) [])).Among t.accepted :=
    .global (fun a ha => hamong.child ha) hmembers (List.forall_mem_nil _)
  refine ⟨enforces_imposeExpr hwf hscopes hamong h.truth hnative,
    (enforces_imposeExpr hwf hscopes hdefined h.truth hsplit).congr fun σ => ?_⟩
  exact Expr.meets_decomposed_iff (g := .defined name args (pairwise .differs args) []) nofun nofun
    (n := n) rfl

/-- What the decompositions over the arguments say about their values, whatever these are; and how
the two ways of posting all-different over the arguments compare. An earlier solution that extends
to what is posted in the native form extends to what is posted as a decomposition. The converse
holds if no cycle can be reached in the arguments, and for two arguments at most. -/
theorem decompositions_exact (args : List Expr) :
    (∀ σ vs, valuesOf σ args = vs.map some → DecompositionsExact σ args vs) ∧
    ∀ config t native split guards, PostsBoth config t native split args guards →
      ∀ x, t.program.Solves x →
        (t.ExtendsTo native x → t.ExtendsTo split x) ∧
          ((∀ a ∈ args, a.Steady) ∨ args.length ≤ 2 →
            (t.ExtendsTo split x → t.ExtendsTo native x)) := by
  refine ⟨fun σ vs h => decompositionsExact h, fun config t native split guards h x hx => ?_⟩
  have hwf := h.reachable.wellFormed
  have hdomain : ∀ v : Var, t.accepted v.toVarKey → ¬ t.layout.Has v →
      v.domain.lower ≤ v.domain.upper := fun v hv hnot => hv.2.resolve_left hnot
  obtain ⟨hnative, hsplit⟩ := h.enforces
  rw [hnative.extendsTo_iff hwf h.truth hdomain hx, hsplit.extendsTo_iff hwf h.truth hdomain hx]
  obtain ⟨_, hrun⟩ := h.native
  constructor
  · intro hextends hguards
    obtain ⟨τ, hτ, hmeets⟩ := hextends hguards
    exact ⟨τ, hτ, meets_differs_of_meets_distinct hmeets⟩
  · intro hsame hextends hguards
    obtain ⟨τ, hτ, hmeets⟩ := hextends hguards
    exact ⟨τ, hτ, meets_distinct_of_meets_differs (ne_list_of_imposeDistinct hrun) hsame hmeets⟩

/-- Two variables and a constant, under a guard. -/
theorem decompositions_exact_of_variables :
    let b : Var := ⟨⟨.declared 0, .bool⟩, "b"⟩
    let v : Var := ⟨⟨.declared 1, .int 0 2⟩, "v"⟩
    let w : Var := ⟨⟨.declared 2, .int 0 2⟩, "w"⟩
    let args : List Expr := [.var v, .var w, .const 1]
    let σ : Valuation := fun k => if k = v.toVarKey then 2 else 0
    let t := stateAfter (register w)
      (stateAfter (register v) (stateAfter (register b) (start 4096)))
    DecompositionsExact σ args [2, 0, 1] ∧
      ∃ native split, PostsBoth {} t native split args [.ofColumn 0] ∧
        ∀ x, t.program.Solves x → (t.ExtendsTo native x ↔ t.ExtendsTo split x) := by
  intro b v w args σ t
  have ht : t.Reachable {} :=
    .register (.register (.register .start fun column hc => by cases hc)
      fun column hc => by cases hc) fun column hc => by cases hc
  have hargs : ∀ a ∈ args, a.AllVars t.Accepts := by
    have hv : t.Accepts v := ⟨Var.IsDeclared.inScope ⟨1, rfl⟩ _, .inl (by decide)⟩
    have hw : t.Accepts w := ⟨Var.IsDeclared.inScope ⟨2, rfl⟩ _, .inl (by decide)⟩
    exact List.forall_mem_cons.2 ⟨.var hv, List.forall_mem_cons.2 ⟨.var hw,
      List.forall_mem_singleton.2 (.const 1)⟩⟩
  have hsteady : ∀ a ∈ args, a.Steady :=
    List.forall_mem_cons.2 ⟨.var v, List.forall_mem_cons.2 ⟨.var w,
      List.forall_mem_singleton.2 (.const 1)⟩⟩
  have hrun : succeedsWith (imposeExpr {} (.global (.plain .allDifferent args)) [.ofColumn 0]) t
      (fun _ _ => true) = true := by
    decide +kernel
  have hrun' : succeedsWith (imposeExpr {}
      (.global (.defined "pairs" args (pairwise .differs args) [])) [.ofColumn 0]) t
        (fun _ _ => true) = true := by
    decide +kernel
  obtain ⟨u, native, hnative, -⟩ := exists_of_succeedsWith hrun
  obtain ⟨u', split, hsplit, -⟩ := exists_of_succeedsWith hrun'
  have hposts : PostsBoth {} t native split args [.ofColumn 0] := {
    reachable := ht
    accepts := .global hargs (List.forall_mem_nil _) (List.forall_mem_nil _)
    truth := List.forall_mem_singleton.2 ⟨_, rfl, by decide, by decide⟩
    native := ⟨u, hnative⟩
    split := ⟨"pairs", 0, _, u', rfl, hsplit⟩ }
  obtain ⟨hexact, hagree⟩ := decompositions_exact args
  refine ⟨hexact σ [2, 0, 1] rfl, native, split, hposts, fun x hx => ?_⟩
  obtain ⟨hforth, hback⟩ := hagree _ _ _ _ _ hposts x hx
  exact ⟨hforth, hback (.inl hsteady)⟩

/-- The native form over a cycle and both truth values has no solution, but the decomposition has
one: it translates the cycle for each of the two pairs that it stands in, and each time with the
order that makes it differ. -/
theorem split_permits_more :
    let args : List Expr := [.global (.plain .circuit [.const 1, .const 0]), .const 0, .const 1]
    let t := start 4096
    ∃ native split, PostsBoth {} t native split args [] ∧
      ∃ x, t.program.Solves x ∧ t.ExtendsTo split x ∧ ¬ t.ExtendsTo native x := by
  intro args t
  let y : Assignment := fun i => [1, 0, 1, 1, 0, 1, 1, 0, 0, 1, 1, 0, 1, 0, 0, 0, 0, 1, 0, 1, 1, 0,
    0, 1, 0].getD i 0
  have hrun : succeedsWith (imposeExpr {} (.global (.plain .allDifferent args)) []) t
      (fun _ _ => true) = true := by
    decide +kernel
  have hrun' : succeedsWith (imposeExpr {}
      (.global (.defined "pairs" args (pairwise .differs args) [])) []) t
        (fun _ split => decide (split.program.Solves y)) = true := by
    decide +kernel
  obtain ⟨u, native, hnative, -⟩ := exists_of_succeedsWith hrun
  obtain ⟨u', split, hsplit, hsolves⟩ := exists_of_succeedsWith hrun'
  have hpair : ∀ j k : Int, ∀ a ∈ [Expr.const j, .const k], a.AllVars t.Accepts := fun j k =>
    List.forall_mem_cons.2 ⟨.const j, List.forall_mem_singleton.2 (.const k)⟩
  have hcycle : (Expr.global (.plain .circuit [.const 1, .const 0])).AllVars t.Accepts :=
    .global (hpair 1 0) (List.forall_mem_nil _) (List.forall_mem_nil _)
  have hposts : PostsBoth {} t native split args [] := {
    reachable := .start
    accepts := .global (List.forall_mem_cons.2 ⟨hcycle, hpair 0 1⟩) (List.forall_mem_nil _)
      (List.forall_mem_nil _)
    truth := List.forall_mem_nil _
    native := ⟨u, hnative⟩
    split := ⟨"pairs", 0, _, u', rfl, hsplit⟩ }
  have hx : t.program.Solves y := by decide
  refine ⟨native, split, hposts, y, hx, ⟨y, .refl _ y, of_decide_eq_true hsolves⟩, ?_⟩
  rintro ⟨z, -, hz⟩
  have hmeets := hposts.enforces.1.sound _ z hz (fun _ _ _ => rfl) (List.forall_mem_nil _)
  exact not_meets_distinct_of_truth hmeets

end Draft

end Linearization
