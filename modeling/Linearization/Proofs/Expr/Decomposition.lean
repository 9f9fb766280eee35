import Linearization.Proofs.Expr.Shape

/-!
# Decompositions and the meaning of globals

A decomposition is built from the parts of its global with few operations, so it inherits what they
keep (`of_decompose`). The second half is about what its members mean: comparisons, conjunctions and
the pairs and steps that they are made from.
-/

namespace Linearization

open Linearization.Valuation

variable {σ τ : Valuation} {e a b c : Expr} {es args : List Expr} {g : Global} {n : Nat}
  {d : Decomposition}

/-! ## The members of a decomposition -/

theorem mem_pairwise {f : Expr → Expr → Expr} (h : c ∈ pairwise f es) :
    ∃ a ∈ es, ∃ b ∈ es, c = f a b := by
  induction es with
  | nil => cases h
  | cons e es ih =>
    rcases List.mem_append.1 h with h | h
    · obtain ⟨b, hb, rfl⟩ := List.mem_map.1 h
      exact ⟨e, List.mem_cons_self, b, List.mem_cons_of_mem _ hb, rfl⟩
    · obtain ⟨a, ha, b, hb, heq⟩ := ih h
      exact ⟨a, List.mem_cons_of_mem _ ha, b, List.mem_cons_of_mem _ hb, heq⟩

theorem mem_zipWith {α β γ : Type} {f : α → β → γ} {as : List α} {bs : List β} {z : γ}
    (h : z ∈ as.zipWith f bs) : ∃ a ∈ as, ∃ b ∈ bs, z = f a b := by
  rw [← List.map_uncurry_zip_eq_zipWith] at h
  obtain ⟨⟨a, b⟩, hmem, rfl⟩ := List.mem_map.1 h
  exact ⟨a, (List.of_mem_zip hmem).1, b, (List.of_mem_zip hmem).2, rfl⟩

theorem mem_consecutive {f : Expr → Expr → Expr} (h : c ∈ consecutive f es) :
    ∃ a ∈ es, ∃ b ∈ es, c = f a b := by
  obtain ⟨a, ha, b, hb, heq⟩ := mem_zipWith h
  exact ⟨a, ha, b, List.mem_of_mem_tail hb, heq⟩

/-- The members of the decomposition of a cycle, where the nodes are given by the steps at which they
are visited. -/
def tour (node : Nat → Expr) : List Expr → List Expr
  | [] => []
  | first :: rest =>
    let size := (first :: rest).length
    [.global (.plain .allDifferent (first :: rest)),
      .global (.plain .allDifferent ((List.range size).map node)),
      (node (size - 1)).equals (.const 0), (node 0).equals first] ++
    (List.range (size - 1)).map fun step =>
      (node (step + 1)).equals (.element (first :: rest) (node step))

theorem circuitDecomposition_eq_tour (n : Nat) (args : List Expr) :
    (circuitDecomposition n args).constraints =
      tour (fun step => .var (orderVar n args.length step)) args := by
  cases args with
  | nil => rfl
  | cons first rest =>
    simp only [circuitDecomposition, tour, List.map_map]
    rfl

section Closure

variable {K : Expr → Prop} (hconst : ∀ c, K (.const c))
  (hcompare : ∀ c a b, K a → K b → K (.compare c a b))
  (hand : ∀ a b, K a → K b → K (.op .and [a, b]))
  (himplies : ∀ a b, K a → K b → K (.op .implies [a, b]))
  (helement : ∀ d es e, (∀ e ∈ d :: es, K e) → K e → K (.element (d :: es) e))
  (hcount : ∀ es e, (∀ e ∈ es, K e) → K e → K (.global (.count es e)))
  (hdistinct : ∀ es, (∀ e ∈ es, K e) → K (.global (.plain .allDifferent es)))

include hconst hcompare hand himplies helement hcount hdistinct

omit hand himplies hcount in
theorem of_tour {node : Nat → Expr} (hargs : ∀ e ∈ args, K e)
    (hnode : ∀ step < args.length, K (node step)) : ∀ c ∈ tour node args, K c := by
  cases args with
  | nil => exact List.forall_mem_nil _
  | cons first rest =>
    intro c hc
    simp only [tour, List.cons_append, List.nil_append, List.mem_cons, List.mem_map,
      List.mem_range] at hc
    rcases hc with rfl | rfl | rfl | rfl | ⟨step, hstep, rfl⟩
    · exact hdistinct _ hargs
    · refine hdistinct _ fun e he => ?_
      obtain ⟨step, hstep, rfl⟩ := List.mem_map.1 he
      exact hnode step (List.mem_range.1 hstep)
    · exact hcompare _ _ _ (hnode _ (by simp)) (hconst 0)
    · exact hcompare _ _ _ (hnode _ (by simp)) (hargs first List.mem_cons_self)
    · exact hcompare _ _ _ (hnode _ (by simp at hstep ⊢; omega))
        (helement _ _ _ hargs (hnode _ (by simp at hstep ⊢; omega)))

omit hand himplies hcount in
theorem of_circuitDecomposition (hargs : ∀ e ∈ args, K e)
    (hnew : ∀ v ∈ (circuitDecomposition n args).newVars, K (.var v)) :
    ∀ c ∈ (circuitDecomposition n args).constraints, K c := by
  rw [circuitDecomposition_eq_tour]
  refine of_tour hconst hcompare helement hdistinct hargs fun step hstep => ?_
  cases args with
  | nil => exact absurd hstep (Nat.not_lt_zero _)
  | cons first rest => exact hnew _ (List.mem_map.2 ⟨step, List.mem_range.2 hstep, rfl⟩)

/-- What holds of the parts of a global and of the variables it introduces, and is kept by the
operations that decompositions are built with, holds of the members of its decomposition. -/
theorem of_decompose (h : g.decompose n = some d) (hargs : ∀ e ∈ g.args, K e)
    (hmembers : ∀ e ∈ g.members, K e) (hnew : ∀ v ∈ d.newVars, K (.var v)) :
    ∀ c ∈ d.constraints, K c := by
  cases g with
  | plain kind args =>
    cases kind with
    | allDifferent =>
      cases h
      intro c hc
      obtain ⟨a, ha, b, hb, rfl⟩ := mem_pairwise hc
      exact hcompare _ _ _ (hargs a ha) (hargs b hb)
    | allDifferentExceptZero =>
      cases h
      intro c hc
      obtain ⟨a, ha, b, hb, rfl⟩ := mem_pairwise hc
      have hzero : ∀ e ∈ args, K (e.differs (.const 0)) := fun e he =>
        hcompare _ _ _ (hargs e he) (hconst 0)
      have hboth : K (.op .and [a.differs (.const 0), b.differs (.const 0)]) :=
        hand _ _ (hzero a ha) (hzero b hb)
      exact himplies _ _ hboth (hcompare .ne _ _ (hargs a ha) (hargs b hb))
    | allEqual =>
      cases h
      intro c hc
      obtain ⟨a, ha, b, hb, rfl⟩ := mem_consecutive hc
      exact hcompare _ _ _ (hargs a ha) (hargs b hb)
    | circuit =>
      cases h
      exact of_circuitDecomposition hconst hcompare helement hdistinct hargs hnew
    | min => cases h
    | max => cases h
  | count args value => cases h
  | cardinality args values counts =>
    cases h
    intro c hc
    obtain ⟨v, -, e, he, rfl⟩ := mem_zipWith hc
    exact hcompare _ _ _ (hargs e (List.mem_append_right _ he))
      (hcount _ _ (fun e he => hargs e (List.mem_append_left _ he)) (hconst v))
  | named name args => cases h
  | defined name args constraints newVars =>
    cases h
    exact hmembers

end Closure

/-! ## Introduced variables -/

theorem newVars_eq_of_decompose (hcircuit : ∀ args, g ≠ .plain .circuit args)
    (h : g.decompose n = some d) : d.newVars = g.newVars := by
  cases g with
  | plain kind args =>
    cases kind with
    | circuit => exact absurd rfl (hcircuit args)
    | min => cases h
    | max => cases h
    | _ => cases h; rfl
  | count args value => cases h
  | cardinality args values counts => cases h; rfl
  | named name args => cases h
  | defined name args constraints newVars => cases h; rfl

/-- What a decomposition introduces comes with the global or is the node at a step of a cycle. -/
theorem mem_newVars_of_decompose {v : Var} (h : g.decompose n = some d) (hv : v ∈ d.newVars) :
    v ∈ g.newVars ∨ ∃ size step, step < size ∧ v = orderVar n size step := by
  by_cases hcircuit : ∃ args, g = .plain .circuit args
  · obtain ⟨args, rfl⟩ := hcircuit
    cases h
    cases args with
    | nil => cases hv
    | cons first rest =>
      obtain ⟨step, hstep, rfl⟩ := List.mem_map.1 hv
      exact .inr ⟨_, step, List.mem_range.1 hstep, rfl⟩
  · rw [newVars_eq_of_decompose (fun args heq => hcircuit ⟨args, heq⟩) h] at hv
    exact .inl hv

/-! ## What holds of all members -/

theorem Expr.Flat.decompose (hg : (Expr.global g).Flat) (h : g.decompose n = some d) :
    d.newVars = [] ∧ ∀ c ∈ d.constraints, c.Flat := by
  have hall : (∀ e ∈ g.args, e.Flat) → (∀ e ∈ g.members, e.Flat) → ∀ c ∈ d.constraints, c.Flat :=
    fun hargs hmembers => of_decompose .const (fun _ _ _ => .compare) (fun _ _ => .op_pair)
      (fun _ _ => .op_pair) (fun _ _ _ => .element) (fun _ _ => .count)
      (fun _ => .plain (by decide)) h hargs hmembers fun v _ => .var v
  cases hg with
  | plain hkind hargs =>
    refine ⟨?_, hall hargs (List.forall_mem_nil _)⟩
    rename_i kind args
    cases kind <;> first | cases h; rfl | exact absurd rfl hkind | cases h
  | count _ _ => cases h
  | cardinality hargs hcounts =>
    refine ⟨by cases h; rfl, hall (fun e he => ?_) (List.forall_mem_nil _)⟩
    exact (List.mem_append.1 he).elim (hargs e) (hcounts e)
  | named _ _ => cases h
  | defined hmembers =>
    cases h
    exact ⟨rfl, hmembers⟩

theorem flat_circuitDecomposition (hargs : ∀ e ∈ args, e.Flat) :
    ∀ c ∈ (circuitDecomposition n args).constraints, c.Flat :=
  of_circuitDecomposition .const (fun _ _ _ => .compare) (fun _ _ _ => .element)
    (fun _ => .plain (by decide)) hargs fun v _ => .var v

theorem Expr.AllVars.decompose {P Q : Var → Prop} (hg : (Expr.global g).AllVars P)
    (h : g.decompose n = some d) (hPQ : ∀ v, P v → Q v) (hnew : ∀ v ∈ d.newVars, Q v) :
    ∀ c ∈ d.constraints, c.AllVars Q := by
  cases hg with
  | global hargs hmembers _ =>
    refine of_decompose .const (fun _ _ _ => .compare) (fun _ _ => .op_pair) (fun _ _ => .op_pair)
      (fun _ _ _ => .element)
      (fun es e hes he => .global ?_ (List.forall_mem_nil _) (List.forall_mem_nil _))
      (fun es hes => .global hes (List.forall_mem_nil _) (List.forall_mem_nil _)) h
      (fun e he => (hargs e he).mono hPQ) (fun e he => (hmembers e he).mono hPQ)
      fun v hv => .var (hnew v hv)
    intro d hd
    rcases List.mem_append.1 hd with hd | hd
    · exact hes d hd
    · rwa [List.mem_singleton.1 hd]

/-- What occurs in a member of a decomposition occurs in the global or is introduced. -/
theorem mem_occurrences_of_decompose (h : g.decompose n = some d) :
    ∀ c ∈ d.constraints, ∀ v ∈ c.occurrences [],
      v ∈ (Expr.global g).occurrences [] ∨ v.toVarKey ∈ keysOf d.newVars := by
  have hall : ∀ {es : List Expr} {v : Var} {P : Prop}, (∀ e ∈ es, v ∈ e.occurrences [] → P) →
      v ∈ occurrencesInAll [] es → P := fun hes hv => by
    obtain ⟨e, he, hv⟩ := mem_occurrencesInAll.1 hv
    exact hes e he hv
  have hpair : ∀ {a b : Expr} {v : Var} {P : Prop}, (v ∈ a.occurrences [] → P) →
      (v ∈ b.occurrences [] → P) → v ∈ occurrencesInAll [] [a, b] → P := fun ha hb =>
    hall (List.forall_mem_cons.2 ⟨ha, List.forall_mem_singleton.2 hb⟩)
  refine of_decompose (K := fun e => ∀ v ∈ e.occurrences [],
    v ∈ (Expr.global g).occurrences [] ∨ v.toVarKey ∈ keysOf d.newVars) (fun _ _ hv => nomatch hv)
    (fun _ _ _ ha hb v hv => (List.mem_append.1 hv).elim (ha v) (hb v))
    (fun _ _ ha hb v => hpair (ha v) (hb v)) (fun _ _ ha hb v => hpair (ha v) (hb v))
    (fun _ _ _ hes he v hv => (List.mem_append.1 hv).elim (hall fun e he => hes e he v) (he v))
    (fun _ _ hes he v hv => (List.mem_append.1 hv).elim (hall fun e he => hes e he v) (he v))
    (fun _ hes v => hall fun e he => hes e he v) h
    (fun e he v hv => .inl (mem_occurrences_of_child he hv)) (fun e he v hv => ?_)
    (fun v hv w hw => ?_)
  · by_cases hnew : v.toVarKey ∈ keysOf g.newVars
    · refine .inr ?_
      cases g with
      | defined name args constraints newVars =>
        cases h
        exact hnew
      | _ => cases he
    · exact .inl (mem_occurrences_of_member he ((unhidden_occurrences v e [] hv).2 _ hnew))
  · obtain rfl := List.mem_singleton.1 hw
    exact .inr (List.mem_map_of_mem hv)

/-! ## Pairs and steps -/

theorem all_pairwise (p : Expr → Bool) (f : Expr → Expr → Expr) (es : List Expr) :
    (pairwise f es).all p = everyPair (fun a b => p (f a b)) es := by
  induction es with
  | nil => rfl
  | cons e es ih =>
    rw [pairwise, List.all_append, ih, everyPair, List.all_map]
    rfl

theorem all_consecutive (p : Expr → Bool) (f : Expr → Expr → Expr) (es : List Expr) :
    (consecutive f es).all p = everyStep (fun a b => p (f a b)) es := by
  unfold consecutive everyStep
  rw [← List.map_zipWith (f := p), List.all_map]
  rfl

theorem everyPair_map {α β : Type} (r : β → β → Bool) (f : α → β) (as : List α) :
    everyPair r (as.map f) = everyPair (fun a b => r (f a) (f b)) as := by
  induction as with
  | nil => rfl
  | cons a as ih =>
    rw [List.map_cons, everyPair, everyPair, ih, List.all_map]
    rfl

theorem everyStep_map {α β : Type} (r : β → β → Bool) (f : α → β) (as : List α) :
    everyStep r (as.map f) = everyStep (fun a b => r (f a) (f b)) as := by
  unfold everyStep
  rw [← List.map_tail, List.zipWith_map]

theorem everyPair_eq_true {α : Type} {r : α → α → Bool} {as : List α} :
    everyPair r as = true ↔ as.Pairwise fun a b => r a b = true := by
  induction as with
  | nil => simp [everyPair]
  | cons a as ih => rw [everyPair, Bool.and_eq_true, List.all_eq_true, ih, List.pairwise_cons]

/-! ## Values of comparisons and conjunctions -/

theorem isTrue_compare (σ : Valuation) (c : Comparison) (a b : Expr) :
    (Expr.compare c a b).isTrue σ = c.holds? (a.value? σ) (b.value? σ) := by
  rw [Expr.isTrue, Expr.value?]
  cases a.value? σ with
  | none => rfl
  | some v =>
    cases b.value? σ with
    | none => rfl
    | some w =>
      show decide (ofTruth (c.Holds v w) ≠ 0) = decide (c.Holds v w)
      by_cases h : c.Holds v w <;> simp [ofTruth, h]

theorem holds_compare (ha : ∀ es, a ≠ .list es) (hb : ∀ es, b ≠ .list es) (c : Comparison) :
    (Expr.compare c a b).holds σ = c.holds? (a.value? σ) (b.value? σ) := by
  have hitems : ∀ e : Expr, (∀ es, e ≠ .list es) → e.itemValues σ = [e.value? σ] := by
    intro e he
    cases e with
    | list es => exact absurd rfl (he es)
    | _ => rfl
  rw [Expr.holds, hitems a ha, hitems b hb]
  simp [Comparison.holdsItemwise]

theorem ne_list_of_isSome (h : (e.value? σ).isSome) (es : List Expr) : e ≠ .list es := by
  rintro rfl
  cases h

theorem isSome_compare {c : Comparison} :
    ((Expr.compare c a b).value? σ).isSome ↔ (a.value? σ).isSome ∧ (b.value? σ).isSome := by
  rw [Expr.value?]
  cases a.value? σ <;> cases b.value? σ <;> simp [Option.bind, bind, pure]

theorem mapM_id_map_some {α : Type} (as : List α) : (as.map some).mapM id = some as := by
  induction as with
  | nil => rfl
  | cons a as ih =>
    rw [List.map_cons, List.mapM_cons, ih]
    rfl

theorem mapM_id_eq_some {α : Type} {os : List (Option α)} {as : List α} :
    os.mapM id = some as ↔ os = as.map some := by
  refine ⟨fun h => ?_, fun h => h ▸ mapM_id_map_some as⟩
  induction os generalizing as with
  | nil =>
    cases h
    rfl
  | cons o os ih =>
    rw [List.mapM_cons] at h
    cases o with
    | none => cases h
    | some a =>
      obtain ⟨_, ha, h⟩ := Option.bind_eq_some_iff.1 h
      obtain ⟨bs, hbs, h⟩ := Option.bind_eq_some_iff.1 h
      cases ha
      cases h
      rw [List.map_cons, ← ih hbs]

theorem valuesOf_eq_map_some (h : ∀ a ∈ args, (a.value? σ).isSome) :
    ∃ vs : List Int, valuesOf σ args = vs.map some := by
  refine ⟨args.map fun a => (a.value? σ).getD 0, ?_⟩
  rw [valuesOf_eq_map, List.map_map]
  refine List.map_congr_left fun a ha => ?_
  obtain ⟨v, hv⟩ := Option.isSome_iff_exists.1 (h a ha)
  simp [hv]

theorem map_isTrue {vs : List Int} (h : valuesOf σ args = vs.map some) :
    args.map (Expr.isTrue σ) = vs.map fun v => decide (v ≠ 0) := by
  have hargs : args.map (Expr.isTrue σ) = (valuesOf σ args).map (Option.any (· ≠ 0)) := by
    rw [valuesOf_eq_map, List.map_map]
    rfl
  rw [hargs, h, List.map_map]
  rfl

theorem all_isTrue {vs : List Int} (h : valuesOf σ args = vs.map some) :
    args.all (Expr.isTrue σ) = vs.all (· ≠ 0) := by
  have hargs : args.all (Expr.isTrue σ) = (args.map (Expr.isTrue σ)).all id := by
    rw [List.all_map]
    rfl
  rw [hargs, map_isTrue h, List.all_map]
  rfl

theorem isSome_of_valuesOf {vs : List Int} (h : valuesOf σ args = vs.map some) :
    ∀ a ∈ args, (a.value? σ).isSome := by
  intro a ha
  have hmem : a.value? σ ∈ vs.map some := by
    rw [← h, valuesOf_eq_map]
    exact List.mem_map_of_mem ha
  obtain ⟨v, -, hv⟩ := List.mem_map.1 hmem
  rw [← hv]
  rfl

/-- A conjunction has a value if all its arguments have, and it is the truth of all of them. -/
theorem value?_and {k : Int} : (Expr.op .and args).value? σ = some k ↔
    (∀ a ∈ args, (a.value? σ).isSome) ∧ k = ofTruth (args.all (Expr.isTrue σ)) := by
  rw [Expr.value?]
  constructor
  · intro h
    obtain ⟨vs, hvs, h⟩ := Option.bind_eq_some_iff.1 h
    rw [mapM_id_eq_some] at hvs
    cases h
    exact ⟨isSome_of_valuesOf hvs, by rw [all_isTrue hvs]⟩
  · rintro ⟨hsome, rfl⟩
    obtain ⟨vs, hvs⟩ := valuesOf_eq_map_some hsome
    rw [hvs, mapM_id_map_some, all_isTrue hvs]
    rfl

theorem isTrue_and (h : ∀ a ∈ args, (a.value? σ).isSome) :
    (Expr.op .and args).isTrue σ = args.all (Expr.isTrue σ) := by
  rw [Expr.isTrue, value?_and.2 ⟨h, rfl⟩]
  cases args.all (Expr.isTrue σ) <;> rfl

theorem isTrue_operands (h : ∀ a ∈ e.operands .and, (a.value? σ).isSome) :
    (e.value? σ).isSome ∧ e.isTrue σ = (e.operands .and).all (Expr.isTrue σ) := by
  cases e with
  | op o args =>
    rw [Expr.operands] at h ⊢
    by_cases ho : o = .and
    · subst ho
      rw [if_pos rfl] at h ⊢
      refine ⟨?_, isTrue_and h⟩
      rw [value?_and.2 ⟨h, rfl⟩]
      rfl
    · rw [if_neg ho] at h ⊢
      exact ⟨h _ (List.mem_singleton_self _), by simp⟩
  | _ => exact ⟨h _ (List.mem_singleton_self _), by simp [Expr.operands]⟩

/-- The conjunction of several constraints, with the arguments of inner conjunctions in their place.
-/
theorem value?_all {k : Int} (h : (Expr.all es).value? σ = some k) :
    (∀ e ∈ es, (e.value? σ).isSome) ∧ k = ofTruth (es.all (Expr.isTrue σ)) := by
  obtain ⟨hsome, hk⟩ := value?_and.1 h
  have hoperands : ∀ e ∈ es, (e.value? σ).isSome ∧
      e.isTrue σ = (e.operands .and).all (Expr.isTrue σ) := fun e he =>
    isTrue_operands fun a ha => hsome a (List.mem_flatMap.2 ⟨e, he, ha⟩)
  refine ⟨fun e he => (hoperands e he).1, ?_⟩
  rw [hk, List.all_flatMap]
  refine congrArg ofTruth (Bool.eq_iff_iff.2 ?_)
  rw [List.all_eq_true, List.all_eq_true]
  exact forall₂_congr fun e he => iff_of_eq (congrArg (· = true) (hoperands e he).2.symm)

/-- The equalities that are counted are the operands of their sum. -/
theorem sum_equals (value : Expr) (es : List Expr) :
    Expr.sum (es.map fun e => e.equals value) = .op .sum (es.map fun e => e.equals value) := by
  refine congrArg (Expr.op .sum) ?_
  induction es with
  | nil => rfl
  | cons e es ih => exact congrArg (e.equals value :: ·) ih

/-- A conjunction has as arguments the constraints, or the arguments of those that are conjunctions.
-/
theorem Expr.all_eq (es : List Expr) : ∃ args, Expr.all es = .op .and args ∧
    ∀ a ∈ args, a ∈ es ∨ ∃ parts, .op .and parts ∈ es ∧ a ∈ parts := by
  refine ⟨_, rfl, fun a ha => ?_⟩
  obtain ⟨e, he, ha⟩ := List.mem_flatMap.1 ha
  cases e with
  | op o parts =>
    rw [Expr.operands] at ha
    split at ha
    · rename_i ho
      exact .inr ⟨parts, ho ▸ he, ha⟩
    · exact .inl (List.mem_singleton.1 ha ▸ he)
  | _ => exact .inl (List.mem_singleton.1 ha ▸ he)

/-- What is true of a conjunction whenever it is of its arguments, and of them whenever it is of the
conjunction, is true of the conjunction of constraints. -/
theorem Expr.forall_all {P : Expr → Prop} (hand : ∀ args, P (.op .and args) ↔ ∀ a ∈ args, P a)
    (h : ∀ e ∈ es, P e) : P (Expr.all es) := by
  obtain ⟨args, heq, hargs⟩ := Expr.all_eq es
  rw [heq, hand]
  intro a ha
  rcases hargs a ha with ha | ⟨parts, hparts, ha⟩
  · exact h a ha
  · exact (hand parts).1 (h _ hparts) a ha

theorem Expr.flat_all (h : ∀ e ∈ es, e.Flat) : (Expr.all es).Flat :=
  forall_all (fun _ => ⟨fun hflat => by cases hflat; assumption, .op⟩) h

theorem Expr.allVars_all {P : Var → Prop} (h : ∀ e ∈ es, e.AllVars P) :
    (Expr.all es).AllVars P :=
  forall_all (fun _ => ⟨fun hvars => by cases hvars; assumption, .op⟩) h

theorem Expr.mem_occurrences_all {hidden : List VarKey} {v : Var}
    (hv : v ∈ (Expr.all es).occurrences hidden) : ∃ e ∈ es, v ∈ e.occurrences hidden := by
  obtain ⟨args, heq, hargs⟩ := Expr.all_eq es
  rw [heq, Expr.occurrences, mem_occurrencesInAll] at hv
  obtain ⟨a, ha, hv⟩ := hv
  rcases hargs a ha with ha | ⟨parts, hparts, ha⟩
  · exact ⟨a, ha, hv⟩
  · exact ⟨_, hparts, mem_occurrences_of_child ha hv⟩

end Linearization
