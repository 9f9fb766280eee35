import Linearization.Proofs.Expr.Equivalence
import Mathlib.Data.List.Pairwise

/-!
# What the decompositions say

Apart from the one of a circuit, the decompositions of globals over their arguments introduce no
variables. Where all arguments have values, the members of a decomposition are constraints and truth
values alike, and all of them hold exactly under a condition on these values: no value occurs twice,
no value but zero occurs twice, there is only one value, or the counts are right
(`decompositionsExact`). The members for pairs compare each argument with each later one, those for
steps only with the next.
-/

namespace Linearization

open Linearization.Valuation

variable {σ : Valuation} {a b value : Expr} {args counts : List Expr} {vs cs values : List Int}
  {k : Int}

/-! ## Steps and counts -/

theorem everyStep_eq_true {α : Type} {r : α → α → Bool} {as : List α} :
    everyStep r as = true ↔ as.IsChain fun a b => r a b = true := by
  induction as with
  | nil => simp [everyStep]
  | cons a as ih =>
    cases as with
    | nil => simp [everyStep]
    | cons b bs =>
      rw [List.isChain_cons_cons, ← ih]
      show (r a b && everyStep r (b :: bs)) = true ↔ _
      exact Bool.and_eq_true_iff

theorem isChain_eq_iff {α : Type} {as : List α} :
    as.IsChain (· = ·) ↔ ∀ a ∈ as, ∀ b ∈ as, a = b := by
  rw [List.isChain_iff_pairwise]
  constructor
  · intro h a ha b hb
    exact h.forall_of_forall (fun _ _ => rfl) ha hb
  · intro h
    exact List.pairwise_of_reflexive_of_forall_ne fun a ha b hb _ => h a ha b hb

theorem foldr_hits (vs : List Int) (k : Int) :
    (vs.map fun v => ofTruth (v = k)).foldr (fun v w => v + w) 0 = (vs.count k : Int) := by
  induction vs with
  | nil => rfl
  | cons v vs ih =>
    rw [List.map_cons, List.foldr, ih]
    by_cases hv : v = k
    · rw [hv, List.count_cons_self, decide_eq_true rfl, ofTruth, if_pos rfl]
      omega
    · rw [List.count_cons_of_ne hv, decide_eq_false hv]
      exact Int.zero_add _

theorem countOf_map_some (vs : List Int) (k : Int) :
    countOf (vs.map some) (some k) = some (vs.count k : Int) := by
  have hits : (vs.map some).mapM (fun a : Option Int => do return ofTruth ((← a) = (← some k))) =
      some (vs.map fun v => ofTruth (v = k)) := by
    induction vs with
    | nil => rfl
    | cons v vs ih =>
      rw [List.map_cons, List.mapM_cons, ih]
      rfl
  rw [← foldr_hits]
  unfold countOf
  rw [hits]
  rfl

/-! ## Members -/

/-- A member that is used as a constraint means its truth value. -/
theorem holds_eq_isTrue_compare (c : Comparison) (ha : (a.value? σ).isSome)
    (hb : (b.value? σ).isSome) :
    (Expr.compare c a b).holds σ = (Expr.compare c a b).isTrue σ := by
  rw [isTrue_compare, holds_compare (ne_list_of_isSome ha) (ne_list_of_isSome hb)]

/-- The global has a decomposition without variables of its own, whose members mean their truth
values and hold exactly under the condition. -/
def Global.Says (g : Global) (σ : Valuation) (C : Prop) : Prop :=
  ∀ n, ∃ d, g.decompose n = some d ∧ d.newVars = [] ∧
    (∀ c ∈ d.constraints, c.holds σ = c.isTrue σ) ∧ (holdsAll σ d.constraints = true ↔ C)

theorem holdsAll_eq_all_isTrue {es : List Expr} (h : ∀ e ∈ es, e.holds σ = e.isTrue σ) :
    holdsAll σ es = es.all (Expr.isTrue σ) := by
  rw [holdsAll_eq_all, Bool.eq_iff_iff, List.all_eq_true, List.all_eq_true]
  exact forall₂_congr fun e he => by rw [h e he]

theorem Global.says_of_all {g : Global} {es : List Expr} {C : Prop}
    (hg : ∀ n, g.decompose n = some ⟨es, []⟩) (hes : ∀ e ∈ es, e.holds σ = e.isTrue σ)
    (hall : es.all (Expr.isTrue σ) = true ↔ C) : g.Says σ C := by
  intro n
  refine ⟨_, hg n, rfl, hes, ?_⟩
  rw [holdsAll_eq_all_isTrue hes, hall]

/-- Each count has the value that belongs to its place exactly if the counts have these values. -/
theorem all_counts_iff (number : Int → Int) (hcounts : valuesOf σ counts = cs.map some)
    (hlength : counts.length = values.length) :
    ((values.zip counts).all fun x =>
      Comparison.eq.holds? (x.2.value? σ) (some (number x.1))) = true ↔
        cs = values.map number := by
  induction values generalizing counts cs with
  | nil =>
    rw [List.length_eq_zero_iff.1 hlength] at hcounts
    have hcs : cs = [] := List.map_eq_nil_iff.1 hcounts.symm
    subst hcs
    exact ⟨fun _ => rfl, fun _ => rfl⟩
  | cons v values ih =>
    obtain ⟨c, counts, rfl⟩ := List.exists_cons_of_length_eq_add_one hlength
    obtain ⟨w, cs, rfl⟩ := List.exists_cons_of_length_eq_add_one (length_of_valuesOf hcounts).symm
    rw [valuesOf, List.map_cons, List.cons.injEq] at hcounts
    rw [List.zip_cons_cons, List.all_cons, Bool.and_eq_true,
      ih hcounts.2 (Nat.succ.inj hlength), hcounts.1, holds?_some_eq, Option.some.injEq,
      List.map_cons, List.cons.injEq, eq_comm]

theorem isSome_unlessZero (ha : (a.value? σ).isSome) (hb : (b.value? σ).isSome) :
    (((Expr.all [a.differs (.const 0), b.differs (.const 0)]).implies
      (a.differs b)).value? σ).isSome := by
  obtain ⟨v, hv⟩ := Option.isSome_iff_exists.1 ha
  obtain ⟨w, hw⟩ := Option.isSome_iff_exists.1 hb
  simp [Expr.implies, Expr.all, Expr.nary, Expr.operands, Expr.differs, Expr.value?, valuesOf,
    Operator.apply, hv, hw]

variable (h : valuesOf σ args = vs.map some)

include h

theorem says_allDifferent : (Global.plain .allDifferent args).Says σ vs.Nodup := by
  have hsome := isSome_of_valuesOf h
  apply Global.says_of_all (fun n => rfl)
  · intro c hc
    obtain ⟨a, ha, b, hb, rfl⟩ := mem_pairwise hc
    exact holds_eq_isTrue_compare .ne (hsome a ha) (hsome b hb)
  · rw [all_pairwise, ← isTrue_allDifferent_iff h, isTrue_allDifferent, valuesOf_eq_map,
      everyPair_map]
    simp only [Expr.differs, isTrue_compare]

theorem says_allDifferentExceptZero :
    (Global.plain .allDifferentExceptZero args).Says σ (vs.filter (· ≠ 0)).Nodup := by
  have hsome := isSome_of_valuesOf h
  have hmembers : ∀ c ∈ pairwise (fun a b =>
      (Expr.all [a.differs (.const 0), b.differs (.const 0)]).implies (a.differs b)) args,
      c.holds σ = c.isTrue σ := by
    intro c hc
    obtain ⟨a, ha, b, hb, rfl⟩ := mem_pairwise hc
    rw [holds_unlessZero, isTrue_unlessZero (isSome_unlessZero (hsome a ha) (hsome b hb))]
  have hpair : ∀ v w : Int,
      (!Comparison.eq.holds? (some v) (some w) || some v == some 0) = true ↔
        (v ≠ 0 → w ≠ 0 → v ≠ w) := by
    intro v w
    rw [Bool.or_eq_true, Bool.not_eq_true', ← Bool.not_eq_true, holds?_some_eq, beq_iff_eq,
      Option.some.injEq, Option.some.injEq]
    omega
  apply Global.says_of_all (fun n => rfl) hmembers
  rw [← holdsAll_eq_all_isTrue hmembers, holdsAll_eq_all, all_pairwise]
  simp only [holds_unlessZero]
  rw [← everyPair_map (fun v w => !Comparison.eq.holds? v w || v == some 0), ← valuesOf_eq_map, h,
    everyPair_map, everyPair_eq_true, List.Nodup, List.pairwise_filter]
  simp only [hpair, decide_eq_true_eq]

theorem says_allEqual :
    (Global.plain .allEqual args).Says σ (∀ v ∈ vs, ∀ w ∈ vs, v = w) := by
  have hsome := isSome_of_valuesOf h
  apply Global.says_of_all (fun n => rfl)
  · intro c hc
    obtain ⟨a, ha, b, hb, rfl⟩ := mem_consecutive hc
    exact holds_eq_isTrue_compare .eq (hsome a ha) (hsome b hb)
  · rw [all_consecutive]
    simp only [Expr.equals, isTrue_compare]
    have hequal : ∀ v w : Int, Comparison.eq.holds? (some v) (some w) = true ↔ v = w := by
      intro v w
      rw [holds?_some_eq, Option.some.injEq, eq_comm]
    rw [← everyStep_map, ← valuesOf_eq_map, h, everyStep_map, everyStep_eq_true, ← isChain_eq_iff]
    simp only [hequal]

theorem says_cardinality (hcounts : valuesOf σ counts = cs.map some)
    (hlength : counts.length = values.length) :
    (Global.cardinality args values counts).Says σ
      (cs = values.map fun v => (vs.count v : Int)) := by
  have hcount : ∀ v : Int, (Expr.global (.count args (.const v))).value? σ =
      some (vs.count v : Int) := by
    intro v
    rw [Expr.value?, Global.value?, h]
    exact countOf_map_some vs v
  apply Global.says_of_all (fun n => rfl)
  · intro c hc
    obtain ⟨v, -, e, he, rfl⟩ := mem_zipWith hc
    apply holds_eq_isTrue_compare .eq (isSome_of_valuesOf hcounts e he)
    rw [hcount]
    rfl
  · rw [all_zipWith]
    simp only [Expr.equals, isTrue_compare, hcount]
    exact all_counts_iff (fun v => vs.count v) hcounts hlength

theorem value?_valueDecomposition (hvalue : value.value? σ = some k) :
    ∃ e, (Global.count args value).valueDecomposition = some e ∧
      e.value? σ = some (vs.count k : Int) := by
  have hequals : ∀ a : Expr, (a.equals value).value? σ =
      (a.value? σ).map fun v => ofTruth (v = k) := by
    intro a
    rw [Expr.equals, Expr.value?, hvalue]
    cases a.value? σ <;> rfl
  have hits : valuesOf σ (args.map fun a => a.equals value) =
      (vs.map fun v => ofTruth (v = k)).map some := by
    rw [valuesOf_eq_map, List.map_map]
    calc args.map (Expr.value? σ ∘ fun a => a.equals value)
        = (args.map (Expr.value? σ)).map (Option.map fun v => ofTruth (v = k)) := by
          rw [List.map_map]
          exact List.map_congr_left fun a _ => hequals a
      _ = (vs.map fun v => ofTruth (v = k)).map some := by
          rw [← valuesOf_eq_map, h, List.map_map, List.map_map]
          rfl
  refine ⟨_, rfl, ?_⟩
  rw [sum_equals, Expr.value?, hits, mapM_id_map_some, ← foldr_hits]
  rfl

omit h in
/-- The decompositions over arguments with the given values say what the globals say. -/
structure DecompositionsExact (σ : Valuation) (args : List Expr) (vs : List Int) : Prop where
  allDifferent : (Global.plain .allDifferent args).Says σ vs.Nodup
  allDifferentExceptZero :
    (Global.plain .allDifferentExceptZero args).Says σ (vs.filter (· ≠ 0)).Nodup
  allEqual : (Global.plain .allEqual args).Says σ (∀ v ∈ vs, ∀ w ∈ vs, v = w)
  cardinality : ∀ (values : List Int) (counts : List Expr) (cs : List Int),
    counts.length = values.length → valuesOf σ counts = cs.map some →
      (Global.cardinality args values counts).Says σ (cs = values.map fun v => (vs.count v : Int))
  count : ∀ (value : Expr) (k : Int), value.value? σ = some k →
    ∃ e, (Global.count args value).valueDecomposition = some e ∧
      e.value? σ = some (vs.count k : Int)

theorem decompositionsExact : DecompositionsExact σ args vs where
  allDifferent := says_allDifferent h
  allDifferentExceptZero := says_allDifferentExceptZero h
  allEqual := says_allEqual h
  cardinality _ _ _ hlength hcounts := says_cardinality h hcounts hlength
  count _ _ hvalue := value?_valueDecomposition h hvalue

end Linearization
