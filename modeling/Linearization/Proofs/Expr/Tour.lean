import Linearization.Proofs.Expr.Circuit
import Mathlib.GroupTheory.Perm.Cycle.Basic

/-!
# Circuits as permutations

`isCircuit` walks along the successors. In terms of permutations the successors form a circuit
exactly if they list the images of the nodes under a permutation with a single cycle
(`isCircuit_iff_exists_perm`), and this is what the decomposition of a circuit says about the values
of its arguments: its order variables can be chosen so that all members hold exactly if the values
are such a list, and there is only one choice (`Global.exists_order_iff_formCycle`).
-/

namespace Linearization

open Linearization.Valuation

variable {successors vs : List Int} {n : Nat} {π : Equiv.Perm (Fin n)}

/-! ## Lists of images -/

/-- The list has, at the place of every node, the node that the permutation moves it to. -/
structure ListsImages (successors : List Int) (π : Equiv.Perm (Fin n)) : Prop where
  length : successors.length = n
  image : ∀ i : Fin n, successors[i.val]? = some ((π i).val : Int)

theorem ListsImages.successorOf (h : ListsImages successors π) (i : Fin n) :
    Linearization.successorOf successors (i.val : Int) = ((π i).val : Int) := by
  unfold Linearization.successorOf itemAt?
  rw [if_neg (by omega), Int.toNat_natCast, h.image i]
  rfl

theorem ListsImages.iterate (h : ListsImages successors π) (steps : Nat) (i : Fin n) :
    (Linearization.successorOf successors)^[steps] (i.val : Int) = (((π ^ steps) i).val : Int) := by
  induction steps with
  | zero => rfl
  | succ steps ih =>
    rw [Function.iterate_succ_apply', ih, h.successorOf, pow_succ', Equiv.Perm.mul_apply]

theorem ListsImages.exists_of_mem (h : ListsImages successors π) {v : Int} (hv : v ∈ successors) :
    ∃ i : Fin n, v = ((π i).val : Int) := by
  obtain ⟨k, hk⟩ := List.mem_iff_getElem?.1 hv
  have hlt : k < n := h.length ▸ (List.getElem?_eq_some_iff.1 hk).1
  refine ⟨⟨k, hlt⟩, ?_⟩
  rw [h.image ⟨k, hlt⟩] at hk
  exact (Option.some.inj hk).symm

theorem ListsImages.nodup (h : ListsImages successors π) : successors.Nodup := by
  rw [List.nodup_iff_getElem?_ne_getElem?]
  intro i j hij hj heq
  have hj' : j < n := h.length ▸ hj
  rw [h.image ⟨i, by omega⟩, h.image ⟨j, hj'⟩, Option.some.injEq, Int.natCast_inj] at heq
  have hsame := congrArg Fin.val (π.injective (Fin.ext heq))
  have hsame : i = j := hsame
  omega

/-! ## One cycle -/

/-- The permutation moves the nodes in a single cycle, which visits all of them. -/
def SingleCycle (π : Equiv.Perm (Fin n)) : Prop := ∀ i j, π.SameCycle i j

/-- So many steps as there are nodes are enough to get from a node to any other. -/
theorem SingleCycle.exists_pow_eq (h : SingleCycle π) (i j : Fin n) : ∃ k < n, (π ^ k) i = j := by
  have hcycle : π.IsCycleOn ((Finset.univ : Finset (Fin n)) : Set (Fin n)) := by
    rw [Finset.coe_univ]
    exact ⟨Set.bijOn_univ.2 π.bijective, fun x _ y _ => h x y⟩
  obtain ⟨k, hk, heq⟩ := hcycle.exists_pow_eq (Finset.mem_univ i) (Finset.mem_univ j)
  rw [Finset.card_univ, Fintype.card_fin] at hk
  exact ⟨k, hk, heq⟩

theorem ListsImages.isCircuit (h : ListsImages successors π) (hcycle : SingleCycle π) :
    isCircuit successors = true := by
  refine isCircuit_eq_true.2 ⟨fun v hv => ?_, h.nodup, fun m hm hlt => ?_⟩
  · obtain ⟨i, rfl⟩ := h.exists_of_mem hv
    have hlt := (π i).isLt
    rw [h.length]
    omega
  · rw [h.length] at hlt ⊢
    have hpos : 0 < n := by omega
    obtain ⟨k, hk, heq⟩ := hcycle.exists_pow_eq ⟨0, hpos⟩ ⟨m.toNat, by omega⟩
    refine ⟨k, hk, ?_⟩
    have hwalk := h.iterate k ⟨0, hpos⟩
    rw [heq] at hwalk
    show (Linearization.successorOf successors)^[k] ((0 : Nat) : Int) = m
    rw [hwalk]
    show (m.toNat : Int) = m
    omega

/-- Nodes without repetitions are the images of a permutation. -/
theorem exists_listsImages (hnodes : ∀ v ∈ successors, 0 ≤ v ∧ v < successors.length)
    (hnodup : successors.Nodup) :
    ∃ π : Equiv.Perm (Fin successors.length), ListsImages successors π := by
  have hnode : ∀ i : Fin successors.length, 0 ≤ successors[i] ∧ successors[i] < successors.length :=
    fun i => hnodes _ (List.getElem_mem i.isLt)
  let f : Fin successors.length → Fin successors.length := fun i =>
    ⟨(successors[i]).toNat, by have := hnode i; omega⟩
  have hf : Function.Injective f := by
    intro i j hij
    have hsame : (successors[i]).toNat = (successors[j]).toNat := congrArg Fin.val hij
    have heq : successors[i] = successors[j] := by
      have hi := hnode i
      have hj := hnode j
      omega
    exact Fin.ext ((hnodup.getElem_inj_iff).1 heq)
  refine ⟨Equiv.ofBijective f (Finite.injective_iff_bijective.1 hf), rfl, fun i => ?_⟩
  rw [List.getElem?_eq_getElem i.isLt, Option.some.injEq]
  show successors[i] = ((successors[i]).toNat : Int)
  have := hnode i
  omega

/-- The successors form a circuit exactly if they are the images of the nodes under a permutation
with a single cycle. -/
theorem isCircuit_iff_exists_perm (hlength : successors.length = n) :
    isCircuit successors = true ↔
      ∃ π : Equiv.Perm (Fin n), SingleCycle π ∧ ListsImages successors π := by
  constructor
  · intro h
    subst hlength
    obtain ⟨hnodes, hnodup, hwalk⟩ := isCircuit_eq_true.1 h
    obtain ⟨π, hπ⟩ := exists_listsImages hnodes hnodup
    -- From node 0 the walk gets to every node, so any two nodes are on its cycle.
    have hzero : ∀ i : Fin successors.length, π.SameCycle ⟨0, i.pos⟩ i := by
      intro i
      obtain ⟨k, -, hk⟩ := hwalk i.val (by omega) (by have := i.isLt; omega)
      refine ⟨k, Fin.ext ?_⟩
      have hiterate := hπ.iterate k ⟨0, i.pos⟩
      rw [zpow_natCast]
      exact Int.natCast_inj.1 (hiterate.symm.trans hk)
    exact ⟨π, fun i j => (hzero i).symm.trans (hzero j), hπ⟩
  · rintro ⟨π, hcycle, hπ⟩
    exact hπ.isCircuit hcycle

/-! ## The decomposition -/

variable {σ τ τ' : Valuation} {args : List Expr} {firstColumn : Nat} {d : Decomposition}

/-- The expressions have values, and these are the images of their places under a permutation with a
single cycle. -/
def FormCycle (σ : Valuation) (args : List Expr) : Prop :=
  ∃ π : Equiv.Perm (Fin args.length),
    SingleCycle π ∧ ∀ i : Fin args.length, args[i].value? σ = some ((π i).val : Int)

theorem formCycle_iff :
    FormCycle σ args ↔ ∃ vs, valuesOf σ args = vs.map some ∧ isCircuit vs = true := by
  have hplace : ∀ {vs : List Int} (i : Fin args.length), valuesOf σ args = vs.map some →
      vs[i.val]?.map some = some (args[i].value? σ) := by
    intro vs i hvs
    rw [← List.getElem?_map, ← hvs, valuesOf_eq_map, List.getElem?_map,
      List.getElem?_eq_getElem i.isLt]
    rfl
  constructor
  · rintro ⟨π, hcycle, hπ⟩
    have hsome : ∀ a ∈ args, (a.value? σ).isSome = true := by
      intro a ha
      obtain ⟨i, hi, rfl⟩ := List.getElem_of_mem ha
      rw [show args[i].value? σ = _ from hπ ⟨i, hi⟩]
      rfl
    obtain ⟨vs, hvs⟩ := valuesOf_eq_map_some hsome
    refine ⟨vs, hvs, ListsImages.isCircuit ⟨(length_of_valuesOf hvs).symm, fun i => ?_⟩ hcycle⟩
    have hvalue := hplace i hvs
    rw [hπ i, Option.map_eq_some_iff] at hvalue
    obtain ⟨v, hv, heq⟩ := hvalue
    rw [hv, heq]
  · rintro ⟨vs, hvs, hcircuit⟩
    obtain ⟨π, hcycle, hπ⟩ := (isCircuit_iff_exists_perm (length_of_valuesOf hvs).symm).1 hcircuit
    refine ⟨π, hcycle, fun i => ?_⟩
    have hvalue := hplace i hvs
    rw [hπ.image i] at hvalue
    exact (Option.some.inj hvalue).symm

/-- All members hold under a valuation that is the given one but for the order variables. -/
def Decomposition.HoldsWith (d : Decomposition) (σ τ : Valuation) : Prop :=
  τ ∈ σ.extensions d.newVars ∧ holdsAll τ d.constraints = true

theorem domains_circuitDecomposition (firstColumn : Nat) (args : List Expr) :
    ((circuitDecomposition firstColumn args).newVars.map fun v => v.domain) =
      List.replicate args.length (.int 0 (args.length - 1)) := by
  cases args with
  | nil => rfl
  | cons first rest =>
    show (((List.range (first :: rest).length).map (orderVar firstColumn _)).map _) = _
    rw [List.map_map, ← List.length_range (n := (first :: rest).length), ← List.map_const,
      List.length_range]
    rfl

/-- The values of the order variables follow the successors from node 0, so the successors determine
them. -/
theorem eq_of_holdsWith
    (hfresh : FreshFor (circuitDecomposition firstColumn args).newVars args)
    (h : (circuitDecomposition firstColumn args).HoldsWith σ τ)
    (h' : (circuitDecomposition firstColumn args).HoldsWith σ τ') : τ = τ' := by
  obtain ⟨hτ, hall⟩ := h
  obtain ⟨hτ', hall'⟩ := h'
  funext k
  by_cases hk : k ∈ keysOf (circuitDecomposition firstColumn args).newVars
  · cases args with
    | nil => cases hk
    | cons first rest =>
      obtain ⟨vs, hvs, -, horder⟩ := isOrder_of_isTrue hfresh hτ (circuit_holdsAll_iff.1 hall)
      obtain ⟨ws, hws, -, horder'⟩ := isOrder_of_isTrue hfresh hτ' (circuit_holdsAll_iff.1 hall')
      have hsame : vs = ws :=
        List.map_injective_iff.2 (Option.some_injective Int) (hvs.symm.trans hws)
      subst hsame
      obtain ⟨v, hv, rfl⟩ := List.mem_map.1 hk
      obtain ⟨step, hstep, rfl⟩ := List.mem_map.1 hv
      rw [List.mem_range, length_of_valuesOf hvs] at hstep
      rw [length_of_valuesOf hvs]
      show orderOf τ firstColumn vs.length step = orderOf τ' firstColumn vs.length step
      rw [horder.eq_iterate hstep, horder'.eq_iterate hstep]
  · rw [(mem_extensions.1 hτ).1 k hk, (mem_extensions.1 hτ').1 k hk]

/-- The decomposition of a circuit introduces one variable for every successor, with the nodes as
its values; none of the successors mentions these variables, which are new. All members hold for
some choice of their values exactly if the successors form a single cycle through all nodes, and
there is no second choice. -/
theorem Global.exists_order_iff_formCycle
    (hd : (Global.plain .circuit args).decompose firstColumn = some d)
    (hfresh : FreshFor d.newVars args) (σ : Valuation) :
    (d.newVars.map fun v => v.domain) = List.replicate args.length (.int 0 (args.length - 1)) ∧
    ((∃ τ, d.HoldsWith σ τ) ↔ FormCycle σ args) ∧
    ∀ τ τ', d.HoldsWith σ τ → d.HoldsWith σ τ' → τ = τ' := by
  cases hd
  refine ⟨domains_circuitDecomposition firstColumn args, ?_, fun τ τ' => eq_of_holdsWith hfresh⟩
  rw [formCycle_iff, ← isTrue_circuit]
  exact (holds_circuit_iff hfresh).symm

/-- Three successors: those that lead around have one order, those with a loop have none. -/
theorem Global.exists_order_iff_formCycle_of_three :
    let s (i : Nat) : Var := ⟨⟨.declared i, .int 0 2⟩, "s"⟩
    let args : List Expr := [.var (s 0), .var (s 1), .var (s 2)]
    let σ (i j k : Int) : Valuation := fun key =>
      if key = (s 0).toVarKey then i else if key = (s 1).toVarKey then j else k
    ∃ d, (Global.plain .circuit args).decompose 3 = some d ∧
      (∃ τ, d.HoldsWith (σ 1 2 0) τ) ∧ ¬ ∃ τ, d.HoldsWith (σ 1 0 2) τ := by
  intro s args σ
  have hfresh : FreshFor (circuitDecomposition 3 args).newVars args := by
    unfold FreshFor
    decide
  have hd : (Global.plain .circuit args).decompose 3 = some (circuitDecomposition 3 args) := rfl
  refine ⟨_, hd, ?_, ?_⟩
  · obtain ⟨-, hiff, -⟩ := exists_order_iff_formCycle hd hfresh (σ 1 2 0)
    exact hiff.2 (formCycle_iff.2 ⟨[1, 2, 0], rfl, by decide⟩)
  · obtain ⟨-, hiff, -⟩ := exists_order_iff_formCycle hd hfresh (σ 1 0 2)
    rw [hiff, formCycle_iff]
    rintro ⟨vs, hvs, hcircuit⟩
    have hvalues : valuesOf (σ 1 0 2) args = [1, 0, 2].map some := rfl
    have hsame : vs = [1, 0, 2] :=
      List.map_injective_iff.2 (Option.some_injective Int) (hvs.symm.trans hvalues)
    subst hsame
    revert hcircuit
    decide

end Linearization
