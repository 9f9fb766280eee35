import Linearization.Proofs.Expr.Decomposition
import Mathlib.Data.Fintype.EquivFin
import Mathlib.Logic.Function.Iterate

/-!
# Circuits

The successors form one cycle through all nodes exactly if the nodes have an order that starts with
the successor of node 0, follows the successors and ends in node 0 (`isCircuit_iff`). Both
directions compare a walk of as many steps as there are nodes with the nodes: it meets each of them
exactly if it meets none of them twice.
-/

namespace Linearization

/-! ## Walks through finitely many nodes -/

/-- A walk of `n` steps inside `n` nodes meets no node twice exactly if it meets every node. -/
theorem injective_iff_surjective {n : Nat} {f : Nat → Int}
    (h : ∀ i < n, 0 ≤ f i ∧ f i < n) :
    (∀ i < n, ∀ j < n, f i = f j → i = j) ↔ ∀ m : Int, 0 ≤ m → m < n → ∃ i < n, f i = m := by
  let g : Fin n → Fin n := fun i => ⟨(f i).toNat, by have := h i i.2; omega⟩
  have hg : ∀ i : Fin n, ((g i : Nat) : Int) = f i := fun i => by
    have := h i i.2
    show ((f i).toNat : Int) = f i
    omega
  have hfinite : Function.Injective g ↔ Function.Surjective g := Finite.injective_iff_surjective
  constructor
  · intro hinj m hm hmn
    obtain ⟨i, hi⟩ := hfinite.1 (fun i j hij => Fin.ext (hinj i i.2 j j.2 (by
      rw [← hg i, ← hg j, hij]))) ⟨m.toNat, by omega⟩
    refine ⟨i, i.2, ?_⟩
    rw [← hg i, hi]
    show (m.toNat : Int) = m
    omega
  · intro hsurj i hi j hj hij
    have hinj := hfinite.2 fun m => by
      obtain ⟨k, hk, heq⟩ := hsurj m (by omega) (by omega)
      refine ⟨⟨k, hk⟩, Fin.ext ?_⟩
      have := hg ⟨k, hk⟩
      dsimp only at this
      omega
    have heq : g ⟨i, hi⟩ = g ⟨j, hj⟩ := Fin.ext (by
      have h₁ := hg ⟨i, hi⟩
      have h₂ := hg ⟨j, hj⟩
      dsimp only at h₁ h₂
      omega)
    exact congrArg Fin.val (hinj heq)

variable {successors : List Int} {order : Nat → Int} {i : Nat}

/-- The successor of a node; outside of the list there is none. -/
def successorOf (successors : List Int) (node : Int) : Int :=
  (itemAt? successors node).getD (-1)

theorem walk_eq_map (successors : List Int) (steps : Nat) (node : Int) :
    walk successors steps node =
      (List.range steps).map fun i => (successorOf successors)^[i] node := by
  induction steps generalizing node with
  | zero => rfl
  | succ steps ih =>
    rw [walk, ih, List.range_succ_eq_map, List.map_cons, List.map_map]
    rfl

/-- The order starts at the successor of node 0, follows the successors, visits no node twice and
ends in node 0. -/
structure IsOrder (successors : List Int) (order : Nat → Int) : Prop where
  range : ∀ i < successors.length, 0 ≤ order i ∧ order i < successors.length
  injective : ∀ i < successors.length, ∀ j < successors.length, order i = order j → i = j
  first : itemAt? successors 0 = some (order 0)
  next : ∀ i, i + 1 < successors.length → itemAt? successors (order i) = some (order (i + 1))
  last : order (successors.length - 1) = 0

theorem IsOrder.eq_iterate (h : IsOrder successors order) (hi : i < successors.length) :
    order i = (successorOf successors)^[i + 1] 0 := by
  induction i with
  | zero =>
    rw [Function.iterate_one, successorOf, h.first]
    rfl
  | succ i ih =>
    rw [Function.iterate_succ_apply', ← ih (by omega), successorOf, h.next i hi]
    rfl

theorem IsOrder.congr {order' : Nat → Int} (h : IsOrder successors order)
    (hpos : 0 < successors.length) (heq : ∀ i < successors.length, order i = order' i) :
    IsOrder successors order' where
  range i hi := heq i hi ▸ h.range i hi
  injective i hi j hj hij := h.injective i hi j hj (by rw [heq i hi, heq j hj, hij])
  first := heq 0 hpos ▸ h.first
  next i hi := by
    rw [← heq i (by omega), ← heq (i + 1) hi]
    exact h.next i hi
  last := by
    rw [← heq _ (by omega)]
    exact h.last

theorem mem_nodes {n : Nat} {v : Int} :
    ((List.range n).map Int.ofNat).contains v = true ↔ 0 ≤ v ∧ v < n := by
  rw [List.contains_iff_mem, List.mem_map]
  constructor
  · rintro ⟨i, hi, rfl⟩
    rw [List.mem_range] at hi
    exact ⟨Int.natCast_nonneg i, Int.ofNat_lt.2 hi⟩
  · intro h
    exact ⟨v.toNat, List.mem_range.2 (by omega), Int.toNat_of_nonneg h.1⟩

/-- Successors are nodes, no node is the successor of two, and a walk from node 0 meets all. -/
theorem isCircuit_eq_true : isCircuit successors = true ↔
    (∀ v ∈ successors, 0 ≤ v ∧ v < successors.length) ∧ successors.Nodup ∧
      ∀ m : Int, 0 ≤ m → m < successors.length →
        ∃ i < successors.length, (successorOf successors)^[i] 0 = m := by
  unfold isCircuit
  rw [Bool.and_eq_true, Bool.and_eq_true, List.all_eq_true, everyPair_eq_true, List.all_eq_true,
    walk_eq_map, and_assoc]
  refine and_congr ?_ (and_congr ?_ ?_)
  · exact forall₂_congr fun v _ => mem_nodes
  · simp [List.Nodup, List.pairwise_iff_forall_sublist]
  · simp only [List.mem_map, List.mem_range, List.contains_iff_mem, forall_exists_index, and_imp]
    constructor
    · intro h m hm hlt
      obtain ⟨i, hi, heq⟩ := h m m.toNat (by omega) (Int.toNat_of_nonneg hm)
      exact ⟨i, hi, heq⟩
    · rintro h m k hk rfl
      exact h _ (Int.natCast_nonneg k) (Int.ofNat_lt.2 hk)

theorem iterate_mem_nodes (h : ∀ v ∈ successors, 0 ≤ v ∧ v < successors.length)
    (hpos : 0 < successors.length) (i : Nat) :
    0 ≤ (successorOf successors)^[i] 0 ∧ (successorOf successors)^[i] 0 < successors.length := by
  induction i with
  | zero => exact ⟨Int.le_refl 0, Int.ofNat_lt.2 hpos⟩
  | succ i ih =>
    obtain ⟨v, hv, heq⟩ := exists_itemAt? ih.1 ih.2
    rw [Function.iterate_succ_apply', successorOf, heq]
    exact h v hv

theorem successorOf_injective (hnodup : successors.Nodup) {v w : Int}
    (hv : 0 ≤ v ∧ v < successors.length) (hw : 0 ≤ w ∧ w < successors.length)
    (h : successorOf successors v = successorOf successors w) : v = w := by
  have hget : ∀ u : Int, 0 ≤ u → ∀ hlt : u.toNat < successors.length,
      successorOf successors u = successors[u.toNat] := by
    intro u hu hlt
    rw [successorOf, itemAt?, if_neg (by omega), List.getElem?_eq_getElem hlt]
    rfl
  rw [hget v hv.1 (by omega), hget w hw.1 (by omega)] at h
  have := (hnodup.getElem_inj_iff).1 h
  omega

/-- The cycle gives the order of its nodes. -/
theorem isOrder_of_isCircuit (hne : successors ≠ []) (h : isCircuit successors = true) :
    IsOrder successors fun i => (successorOf successors)^[i + 1] 0 := by
  obtain ⟨hnodes, hnodup, hsurj⟩ := isCircuit_eq_true.1 h
  have hpos : 0 < successors.length := List.length_pos_iff.2 hne
  have hmem := iterate_mem_nodes hnodes hpos
  have hinj := (injective_iff_surjective (n := successors.length) fun i _ => hmem i).2 hsurj
  have hinj' : ∀ i < successors.length, ∀ j < successors.length,
      (successorOf successors)^[i + 1] 0 = (successorOf successors)^[j + 1] 0 → i = j := by
    intro i hi j hj heq
    rw [Function.iterate_succ_apply', Function.iterate_succ_apply'] at heq
    exact hinj i hi j hj (successorOf_injective hnodup (hmem i) (hmem j) heq)
  have hstep : ∀ i, itemAt? successors ((successorOf successors)^[i] 0) =
      some ((successorOf successors)^[i + 1] 0) := by
    intro i
    obtain ⟨v, -, heq⟩ := exists_itemAt? (hmem i).1 (hmem i).2
    rw [Function.iterate_succ_apply', successorOf, heq]
    rfl
  refine ⟨fun i _ => hmem (i + 1), hinj', hstep 0, fun i _ => hstep (i + 1), ?_⟩
  -- node 0 is met again, and before the last step it would be met twice
  obtain ⟨j, hj, heq⟩ := (injective_iff_surjective (n := successors.length)
    fun i _ => hmem (i + 1)).1 hinj' 0 (Int.le_refl 0) (Int.ofNat_lt.2 hpos)
  have hlast : j = successors.length - 1 := by
    by_contra hlt
    have := hinj (j + 1) (by omega) 0 hpos heq
    omega
  rw [← hlast]
  exact heq

/-- The order makes the successors a cycle. -/
theorem IsOrder.isCircuit (hne : successors ≠ []) (hnodup : successors.Nodup)
    (h : IsOrder successors order) : isCircuit successors = true := by
  have hpos : 0 < successors.length := List.length_pos_iff.2 hne
  have hsurj := (injective_iff_surjective h.range).1 h.injective
  refine isCircuit_eq_true.2 ⟨fun v hv => ?_, hnodup, fun m hm hlt => ?_⟩
  · obtain ⟨k, hk, rfl⟩ := List.getElem_of_mem hv
    obtain ⟨i, hi, heq⟩ := hsurj k (Int.natCast_nonneg k) (Int.ofNat_lt.2 hk)
    have hitem : itemAt? successors (k : Int) = some successors[k] := by
      rw [itemAt?, if_neg (by omega)]
      exact List.getElem?_eq_getElem hk
    rw [← heq] at hitem
    by_cases hlast : i + 1 < successors.length
    · rw [h.next i hlast] at hitem
      exact Option.some.inj hitem ▸ h.range (i + 1) hlast
    · have hi' : i = successors.length - 1 := by omega
      rw [hi', h.last, h.first] at hitem
      exact Option.some.inj hitem ▸ h.range 0 hpos
  · obtain ⟨i, hi, rfl⟩ := hsurj m hm hlt
    by_cases hlast : i + 1 < successors.length
    · exact ⟨i + 1, hlast, (h.eq_iterate hi).symm⟩
    · have hi' : i = successors.length - 1 := by omega
      exact ⟨0, hpos, by rw [hi', h.last]; rfl⟩

/-- The successors form one cycle through all nodes exactly if the nodes have such an order. -/
theorem isCircuit_iff (hne : successors ≠ []) : isCircuit successors = true ↔
    successors.Nodup ∧ ∃ order, IsOrder successors order :=
  ⟨fun h => ⟨(isCircuit_eq_true.1 h).2.1, _, isOrder_of_isCircuit hne h⟩,
    fun ⟨hnodup, _, h⟩ => h.isCircuit hne hnodup⟩

/-! ## The decomposition of a circuit -/

open Linearization.Valuation

variable {σ τ : Valuation} {args : List Expr} {first : Expr} {rest : List Expr} {vs : List Int}
  {firstColumn size : Nat}

theorem holds?_some_eq {v : Int} {o : Option Int} :
    Comparison.eq.holds? (some v) o = true ↔ o = some v := by
  cases o with
  | none => simp [Comparison.holds?]
  | some w =>
    show decide (v = w) = true ↔ _
    rw [decide_eq_true_eq, Option.some.injEq, eq_comm]

theorem holds?_ne_some {v w : Int} :
    Comparison.ne.holds? (some v) (some w) = true ↔ v ≠ w := by
  show decide (v ≠ w) = true ↔ _
  rw [decide_eq_true_eq]

theorem isTrue_allDifferent : (Expr.global (.plain .allDifferent args)).isTrue σ =
    everyPair (Comparison.ne.holds? · ·) (valuesOf σ args) := by
  rw [Expr.isTrue, Expr.value?, Global.value?]
  show decide (ofTruth _ ≠ 0) = _
  cases everyPair (Comparison.ne.holds? · ·) (valuesOf σ args) <;> rfl

theorem isTrue_allDifferent_iff (h : valuesOf σ args = vs.map some) :
    (Expr.global (.plain .allDifferent args)).isTrue σ = true ↔ vs.Nodup := by
  rw [isTrue_allDifferent, h, everyPair_map, everyPair_eq_true]
  simp only [holds?_ne_some]
  rfl

theorem value?_element {array : List Expr} {index : Expr} {position : Int}
    (h : valuesOf σ array = vs.map some) (hi : index.value? σ = some position) :
    (Expr.element array index).value? σ = itemAt? vs position := by
  rw [Expr.value?, hi, h]
  show (do (← itemAt? (vs.map some) position)) = _
  rw [itemAt?_map]
  cases itemAt? vs position <;> rfl

/-- The values of the order variables. -/
def orderOf (τ : Valuation) (firstColumn size : Nat) (step : Nat) : Int :=
  τ (orderVar firstColumn size step).toVarKey

theorem valuesOf_orderVars (τ : Valuation) (firstColumn size : Nat) :
    valuesOf τ (((List.range size).map (orderVar firstColumn size)).map .var) =
      ((List.range size).map (orderOf τ firstColumn size)).map some := by
  rw [valuesOf_eq_map, List.map_map, List.map_map, List.map_map]
  rfl

theorem value?_first (h : valuesOf τ (first :: rest) = vs.map some) :
    first.value? τ = itemAt? vs 0 := by
  cases vs with
  | nil => cases h
  | cons v vs =>
    rw [valuesOf, List.map_cons, List.cons.injEq] at h
    rw [h.1]
    rfl

theorem isTrue_step {step : Nat} (h : valuesOf τ args = vs.map some) :
    ((Expr.var (orderVar firstColumn size (step + 1))).equals
      (.element args (.var (orderVar firstColumn size step)))).isTrue τ = true ↔
      itemAt? vs (orderOf τ firstColumn size step) =
        some (orderOf τ firstColumn size (step + 1)) := by
  rw [Expr.equals, isTrue_compare, value?_element h rfl]
  exact holds?_some_eq

/-- The members of the decomposition say that the order variables are an order of the nodes. -/
theorem circuit_isTrue_iff (hvals : valuesOf τ (first :: rest) = vs.map some)
    (hrange : ∀ i < vs.length, 0 ≤ orderOf τ firstColumn vs.length i ∧
      orderOf τ firstColumn vs.length i < vs.length) :
    (∀ c ∈ (circuitDecomposition firstColumn (first :: rest)).constraints, c.isTrue τ = true) ↔
      vs.Nodup ∧ IsOrder vs (orderOf τ firstColumn vs.length) := by
  have hlen : (first :: rest).length = vs.length := by
    have := congrArg List.length hvals
    rwa [valuesOf_eq_map, List.length_map, List.length_map] at this
  have hlast : ((Expr.var (orderVar firstColumn vs.length (vs.length - 1))).equals
      (.const 0)).isTrue τ = true ↔ orderOf τ firstColumn vs.length (vs.length - 1) = 0 := by
    rw [Expr.equals, isTrue_compare]
    refine holds?_some_eq.trans ?_
    rw [Expr.value?, Option.some.injEq, eq_comm]
    rfl
  have hfirst : ((Expr.var (orderVar firstColumn vs.length 0)).equals first).isTrue τ = true ↔
      itemAt? vs 0 = some (orderOf τ firstColumn vs.length 0) := by
    rw [Expr.equals, isTrue_compare, value?_first hvals]
    exact holds?_some_eq
  simp only [circuitDecomposition, hlen, List.cons_append, List.nil_append, List.forall_mem_cons,
    List.forall_mem_map, List.mem_range]
  rw [isTrue_allDifferent_iff hvals, isTrue_allDifferent_iff (valuesOf_orderVars _ _ _), hlast,
    hfirst, List.nodup_map_iff_inj_on List.nodup_range]
  simp only [List.mem_range, isTrue_step hvals]
  constructor
  · rintro ⟨hnodup, hinj, hlast, hfirst, hnext⟩
    exact ⟨hnodup, hrange, hinj, hfirst, fun i hi => hnext i (by omega), hlast⟩
  · rintro ⟨hnodup, horder⟩
    exact ⟨hnodup, horder.injective, horder.last, horder.first,
      fun i hi => horder.next i (by omega)⟩

/-- Without a value for every successor the members of the decomposition are not all true. -/
theorem isSome_of_circuit_isTrue
    (h : ∀ c ∈ (circuitDecomposition firstColumn (first :: rest)).constraints, c.isTrue τ = true) :
    ∀ e ∈ first :: rest, (e.value? τ).isSome := by
  simp only [circuitDecomposition, List.cons_append, List.nil_append, List.forall_mem_cons] at h
  obtain ⟨hdistinct, -, -, hfirst, -⟩ := h
  have hsome : (first.value? τ).isSome := by
    rw [Expr.equals, isTrue_compare] at hfirst
    rw [holds?_some_eq.1 hfirst]
    rfl
  rw [isTrue_allDifferent, valuesOf, everyPair, Bool.and_eq_true, List.all_eq_true] at hdistinct
  refine List.forall_mem_cons.2 ⟨hsome, fun e he => ?_⟩
  have hne := hdistinct.1 (e.value? τ) (by rw [valuesOf_eq_map]; exact List.mem_map_of_mem he)
  cases hval : e.value? τ with
  | some v => rfl
  | none =>
    rw [hval] at hne
    cases hfirst : first.value? τ with
    | none => rw [hfirst] at hsome; cases hsome
    | some v => rw [hfirst] at hne; cases hne

/-- Where the successors have values, a member of the decomposition holds as a constraint exactly if
its value is true. -/
theorem circuit_holds_eq (hsome : ∀ e ∈ first :: rest, (e.value? τ).isSome) {c : Expr}
    (hc : c ∈ (circuitDecomposition firstColumn (first :: rest)).constraints) :
    c.holds τ = c.isTrue τ := by
  have hcompare : ∀ a b : Expr, (∀ es, a ≠ .list es) → (∀ es, b ≠ .list es) →
      (a.equals b).holds τ = (a.equals b).isTrue τ := fun a b ha hb =>
    (holds_compare ha hb .eq).trans (isTrue_compare τ .eq a b).symm
  have hdistinct : ∀ es : List Expr, (∀ e ∈ es, (e.value? τ).isSome) →
      (Expr.global (.plain .allDifferent es)).holds τ =
        (Expr.global (.plain .allDifferent es)).isTrue τ := by
    intro es hes
    have hall : (valuesOf τ es).all Option.isSome = true := by
      rw [valuesOf_eq_map, List.all_map, List.all_eq_true]
      exact hes
    rw [Expr.holds, Global.holds, hall, Bool.true_and]
  simp only [circuitDecomposition, List.cons_append, List.nil_append, List.mem_cons, List.mem_map]
    at hc
  rcases hc with rfl | rfl | rfl | rfl | ⟨step, -, rfl⟩
  · exact hdistinct _ hsome
  · exact hdistinct _ (by simp [Expr.value?])
  · exact hcompare _ _ (by simp) (by simp)
  · exact hcompare _ _ (by simp) (ne_list_of_isSome (hsome first List.mem_cons_self))
  · exact hcompare _ _ (by simp) (by simp)

theorem circuit_holdsAll_iff :
    holdsAll τ (circuitDecomposition firstColumn (first :: rest)).constraints = true ↔
      ∀ c ∈ (circuitDecomposition firstColumn (first :: rest)).constraints, c.isTrue τ = true := by
  rw [holdsAll_iff]
  constructor
  · intro h c hc
    have hdistinct := h (.global (.plain .allDifferent (first :: rest))) List.mem_cons_self
    rw [Expr.holds, Global.holds, Bool.and_eq_true, valuesOf_eq_map, List.all_map,
      List.all_eq_true] at hdistinct
    rw [← circuit_holds_eq hdistinct.1 hc]
    exact h c hc
  · intro h c hc
    rw [circuit_holds_eq (isSome_of_circuit_isTrue h) hc]
    exact h c hc

theorem isTrue_circuit : (Expr.global (.plain .circuit args)).isTrue σ = true ↔
    ∃ vs : List Int, valuesOf σ args = vs.map some ∧ isCircuit vs = true := by
  rw [Expr.isTrue, Expr.value?, Global.value?]
  show (((valuesOf σ args).mapM id).map fun vs => ofTruth (isCircuit vs)).any (· ≠ 0) = true ↔ _
  cases h : (valuesOf σ args).mapM id with
  | none =>
    simp only [Option.map_none, Option.any_none, Bool.false_eq_true, false_iff, not_exists, not_and]
    intro vs hvs
    rw [mapM_id_eq_some.2 hvs] at h
    cases h
  | some vs =>
    have hvs := mapM_id_eq_some.1 h
    have hunique : ∀ ws : List Int, valuesOf σ args = ws.map some → ws = vs := fun ws hws =>
      List.map_injective_iff.2 (Option.some_injective Int) (hws.symm.trans hvs)
    constructor
    · intro htrue
      refine ⟨vs, hvs, ?_⟩
      cases hc : isCircuit vs with
      | true => rfl
      | false => simp [hc, ofTruth] at htrue
    · rintro ⟨ws, hws, hc⟩
      rw [hunique ws hws] at hc
      simp [hc, ofTruth]

/-- The valuation that gives the order variables the values of an order. -/
def withOrder (σ : Valuation) (firstColumn size : Nat) (order : Nat → Int) : Valuation := fun k =>
  if k ∈ keysOf ((List.range size).map (orderVar firstColumn size)) then
    match k.serial with
    | .introduced column => order (column - firstColumn)
    | .declared _ => 0
  else σ k

theorem orderOf_withOrder {step : Nat} (h : step < size) :
    orderOf (withOrder σ firstColumn size order) firstColumn size step = order step := by
  unfold orderOf withOrder
  have hmem : (orderVar firstColumn size step).toVarKey ∈
      keysOf ((List.range size).map (orderVar firstColumn size)) :=
    List.mem_map_of_mem (List.mem_map_of_mem (List.mem_range.2 h))
  rw [if_pos hmem]
  show order (firstColumn + step - firstColumn) = order step
  congr 1
  omega

theorem withOrder_mem_extensions (h : ∀ i < size, 0 ≤ order i ∧ order i < size) :
    withOrder σ firstColumn size order ∈
      σ.extensions ((List.range size).map (orderVar firstColumn size)) := by
  refine mem_extensions.2 ⟨fun k hk => if_neg hk, fun v hv => ?_⟩
  obtain ⟨step, hstep, rfl⟩ := List.mem_map.1 hv
  rw [List.mem_range] at hstep
  have heq : withOrder σ firstColumn size order (orderVar firstColumn size step).toVarKey =
      order step := orderOf_withOrder hstep
  rw [heq]
  have := h step hstep
  exact ⟨this.1, by show order step ≤ (size : Int) - 1; omega⟩

/-- The introduced variables do not occur in the successors. -/
def FreshFor (newVars : List Var) (args : List Expr) : Prop :=
  ∀ v ∈ newVars, ∀ e ∈ args, ∀ w ∈ e.occurrences [], w.toVarKey ≠ v.toVarKey

theorem valuesOf_of_fresh {newVars : List Var} (hfresh : FreshFor newVars args)
    (h : τ ∈ σ.extensions newVars) : valuesOf τ args = valuesOf σ args := by
  refine valuesOf_congr (fun e _ => hasFrame e) fun e he => ⟨fun w hw => ?_, List.forall_mem_nil _⟩
  refine (mem_extensions.1 h).1 _ fun hmem => ?_
  obtain ⟨v, hv, heq⟩ := List.mem_map.1 hmem
  exact hfresh v hv e he w hw heq.symm

theorem length_of_valuesOf {vs : List Int} (h : valuesOf σ args = vs.map some) :
    args.length = vs.length := by
  have hlength := congrArg List.length h
  rwa [valuesOf_eq_map, List.length_map, List.length_map] at hlength

theorem exists_order_of_isCircuit {first : Expr} {rest : List Expr} {vs : List Int}
    (hfresh : FreshFor (circuitDecomposition firstColumn (first :: rest)).newVars (first :: rest))
    (hvs : valuesOf σ (first :: rest) = vs.map some) (h : isCircuit vs = true) :
    ∃ τ ∈ σ.extensions (circuitDecomposition firstColumn (first :: rest)).newVars,
      ∀ c ∈ (circuitDecomposition firstColumn (first :: rest)).constraints, c.isTrue τ = true := by
  have hlen := length_of_valuesOf hvs
  have hne : vs ≠ [] := List.length_pos_iff.1 (hlen ▸ Nat.succ_pos rest.length)
  obtain ⟨hnodup, order, horder⟩ := (isCircuit_iff hne).1 h
  have hmem : withOrder σ firstColumn vs.length order ∈
      σ.extensions ((List.range vs.length).map (orderVar firstColumn vs.length)) :=
    withOrder_mem_extensions horder.range
  have hvars : (circuitDecomposition firstColumn (first :: rest)).newVars =
      (List.range vs.length).map (orderVar firstColumn vs.length) := by
    simp only [circuitDecomposition, hlen]
  rw [hvars] at hfresh ⊢
  have hsame : ∀ i < vs.length, orderOf (withOrder σ firstColumn vs.length order) firstColumn
      vs.length i = order i := fun i hi => orderOf_withOrder hi
  have horder' := horder.congr (List.length_pos_iff.2 hne) fun i hi => (hsame i hi).symm
  have hvalues := (valuesOf_of_fresh hfresh hmem).trans hvs
  exact ⟨_, hmem, (circuit_isTrue_iff hvalues horder'.range).2 ⟨hnodup, horder'⟩⟩

theorem isOrder_of_isTrue {first : Expr} {rest : List Expr}
    (hfresh : FreshFor (circuitDecomposition firstColumn (first :: rest)).newVars (first :: rest))
    (hτ : τ ∈ σ.extensions (circuitDecomposition firstColumn (first :: rest)).newVars)
    (hall : ∀ c ∈ (circuitDecomposition firstColumn (first :: rest)).constraints,
      c.isTrue τ = true) :
    ∃ vs, valuesOf σ (first :: rest) = vs.map some ∧ vs.Nodup ∧
      IsOrder vs (orderOf τ firstColumn vs.length) := by
  obtain ⟨vs, hvs⟩ := valuesOf_eq_map_some (isSome_of_circuit_isTrue hall)
  have hlen := length_of_valuesOf hvs
  have hrange : ∀ i < vs.length, 0 ≤ orderOf τ firstColumn vs.length i ∧
      orderOf τ firstColumn vs.length i < vs.length := fun i hi => by
    obtain ⟨hlow, hhigh⟩ := (mem_extensions.1 hτ).2 (orderVar firstColumn vs.length i) (by
      simp only [circuitDecomposition, hlen]
      exact List.mem_map_of_mem (List.mem_range.2 hi))
    have hhigh : orderOf τ firstColumn vs.length i ≤ (vs.length : Int) - 1 := hhigh
    exact ⟨hlow, by omega⟩
  exact ⟨vs, (valuesOf_of_fresh hfresh hτ).symm.trans hvs, (circuit_isTrue_iff hvs hrange).1 hall⟩

theorem isCircuit_of_isTrue {first : Expr} {rest : List Expr}
    (hfresh : FreshFor (circuitDecomposition firstColumn (first :: rest)).newVars (first :: rest))
    (hτ : τ ∈ σ.extensions (circuitDecomposition firstColumn (first :: rest)).newVars)
    (hall : ∀ c ∈ (circuitDecomposition firstColumn (first :: rest)).constraints,
      c.isTrue τ = true) :
    ∃ vs, valuesOf σ (first :: rest) = vs.map some ∧ isCircuit vs = true := by
  obtain ⟨vs, hvs, hnodup, horder⟩ := isOrder_of_isTrue hfresh hτ hall
  have hlen := length_of_valuesOf hvs
  have hne : vs ≠ [] := List.length_pos_iff.1 (hlen ▸ Nat.succ_pos rest.length)
  exact ⟨vs, hvs, (isCircuit_iff hne).2 ⟨hnodup, _, horder⟩⟩

/-- The circuit is true exactly if the order variables can be chosen so that the members are. -/
theorem isTrue_circuit_iff
    (hfresh : FreshFor (circuitDecomposition firstColumn args).newVars args) :
    (Expr.global (.plain .circuit args)).isTrue σ = true ↔
      ∃ τ ∈ σ.extensions (circuitDecomposition firstColumn args).newVars,
        ∀ c ∈ (circuitDecomposition firstColumn args).constraints, c.isTrue τ = true := by
  cases args with
  | nil => simp [circuitDecomposition, extensions, isTrue_circuit, valuesOf, isCircuit, everyPair]
  | cons first rest =>
    rw [isTrue_circuit]
    constructor
    · rintro ⟨vs, hvs, hc⟩
      exact exists_order_of_isCircuit hfresh hvs hc
    · rintro ⟨τ, hτ, hall⟩
      exact isCircuit_of_isTrue hfresh hτ hall

theorem holds_circuit_iff (hfresh : FreshFor (circuitDecomposition firstColumn args).newVars args) :
    (Expr.global (.plain .circuit args)).holds σ = true ↔
      ∃ τ ∈ σ.extensions (circuitDecomposition firstColumn args).newVars,
        holdsAll τ (circuitDecomposition firstColumn args).constraints = true := by
  show (Expr.global (.plain .circuit args)).isTrue σ = true ↔ _
  rw [isTrue_circuit_iff hfresh]
  refine exists_congr fun τ => and_congr_right fun _ => ?_
  cases args with
  | nil => simp [circuitDecomposition, holdsAll]
  | cons first rest => exact circuit_holdsAll_iff.symm

end Linearization
