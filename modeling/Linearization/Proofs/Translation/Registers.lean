import Linearization.Proofs.Expr.Outcome
import Linearization.Proofs.Translation.Steps

/-!
# The variables that an expression registers

Expanding a global registers the variables that its decomposition introduces and those that its
members mention, and so on for the members. Which declared variables these are can be read off the
expression: `Expr.Registers` for one that is lowered, `Expr.RegistersImposed` for one that is
imposed. The two differ, since all-different is imposed without its decomposition.

The node variables of a cycle are numbered for the columns that they get, so the members of a cycle
are not the same everywhere. The declared variables that they register are the same: those that the
arguments mention or register (`registers_expanded_iff`, `registersImposed_expanded_iff`).
-/

namespace Linearization

open Linearization.Valuation (keysOf)

/-- A user has declared the variable with this identity. -/
def VarKey.IsDeclared (k : VarKey) : Prop := ∃ number, k.serial = .declared number

/-- Expanding a global to the decomposition registers the variable. -/
def Decomposition.Brings (d : Decomposition) (k : VarKey) : Prop :=
  k ∈ keysOf (d.newVars ++ varsOf d.constraints)

/-- Expanding a global to the decomposition registers the variable, or a member does so. -/
def Decomposition.Registers (d : Decomposition) (byMember : Expr → Prop) (k : VarKey) : Prop :=
  d.Brings k ∨ ∃ c ∈ d.constraints, byMember c

namespace Expr

/-- The variable occurs in the expression. -/
def Mentions (k : VarKey) (e : Expr) : Prop := k ∈ keysOf (e.occurrences [])

/-- Lowering the expression registers the variable, unless it is registered already. -/
inductive Registers (k : VarKey) : Expr → Prop where
  | child {e d : Expr} (he : ∀ g, e ≠ global g) (hd : d ∈ e.children) (h : Registers k d) :
    Registers k e
  | extremum {kind : GlobalKind} {args : List Expr} {d : Expr} (hkind : kind = .min ∨ kind = .max)
    (hd : d ∈ args) (h : Registers k d) : Registers k (global (.plain kind args))
  | count {args : List Expr} {value : Expr}
    (h : Registers k (sum (args.map fun a => a.equals value))) :
    Registers k (global (.count args value))
  | expanded {g : Global} {n : Nat} {d : Decomposition} (hd : g.decompose n = some d)
    (hk : d.Brings k) : Registers k (global g)
  | member {g : Global} {n : Nat} {d : Decomposition} {c : Expr} (hd : g.decompose n = some d)
    (hc : c ∈ d.constraints) (h : Registers k c) : Registers k (global g)

/-- Imposing the expression registers the variable, unless it is registered already. -/
inductive RegistersImposed (k : VarKey) : Expr → Prop where
  | direct {e : Expr} (he : e.IsDirect) (h : e.Registers k) : RegistersImposed k e
  | compare {c : Comparison} {lhs rhs : Expr} (h : (compare c lhs rhs).Registers k) :
    RegistersImposed k (compare c lhs rhs)
  | list {es : List Expr} {d : Expr} (hd : d ∈ es) (h : RegistersImposed k d) :
    RegistersImposed k (list es)
  | and {args : List Expr} {d : Expr} (hd : d ∈ args) (h : RegistersImposed k d) :
    RegistersImposed k (op .and args)
  | antecedent {a b : Expr} (h : a.Registers k) : RegistersImposed k (op .implies [a, b])
  | consequent {a b : Expr} (h : RegistersImposed k b) : RegistersImposed k (op .implies [a, b])
  | distinct {args : List Expr} {d : Expr} (hd : d ∈ args) (h : d.Registers k) :
    RegistersImposed k (global (.plain .allDifferent args))
  | function {g : Global} (hg : g.isBoolean = false) (h : (global g).Registers k) :
    RegistersImposed k (global g)
  | expanded {g : Global} {n : Nat} {d : Decomposition}
    (hdistinct : ∀ args, g ≠ .plain .allDifferent args) (hd : g.decompose n = some d)
    (hk : d.Brings k) : RegistersImposed k (global g)
  | member {g : Global} {n : Nat} {d : Decomposition} {c : Expr}
    (hdistinct : ∀ args, g ≠ .plain .allDifferent args) (hd : g.decompose n = some d)
    (hc : c ∈ d.constraints) (h : RegistersImposed k c) : RegistersImposed k (global g)

variable {k : VarKey} {e a b c : Expr} {es args : List Expr} {g : Global} {n : Nat}
  {d : Decomposition}

/-! ## Subexpressions -/

theorem mem_keysOf_occurrencesInAll :
    k ∈ keysOf (occurrencesInAll [] es) ↔ ∃ e ∈ es, e.Mentions k := by
  unfold keysOf Mentions keysOf
  simp only [List.mem_map, mem_occurrencesInAll]
  constructor
  · rintro ⟨v, ⟨e, he, hv⟩, rfl⟩
    exact ⟨e, he, v, hv, rfl⟩
  · rintro ⟨e, he, v, hv, rfl⟩
    exact ⟨v, ⟨e, he, hv⟩, rfl⟩

theorem mem_keysOf_varsOf : k ∈ keysOf (varsOf es) ↔ ∃ e ∈ es, e.Mentions k := by
  rw [← mem_keysOf_occurrencesInAll]
  constructor
  · intro hk
    obtain ⟨v, hv, rfl⟩ := List.mem_map.1 hk
    exact List.mem_map_of_mem (Translate.mem_varsOf hv)
  · intro hk
    obtain ⟨v, hv, rfl⟩ := List.mem_map.1 hk
    exact mem_keysOf_firstOfEach hv

theorem brings_iff : d.Brings k ↔ k ∈ keysOf d.newVars ∨ ∃ c ∈ d.constraints, c.Mentions k := by
  unfold Decomposition.Brings
  rw [← mem_keysOf_varsOf, keysOf, List.map_append, List.mem_append]

/-- Anything but a global registers what its subexpressions register. -/
theorem registers_iff (he : ∀ g, e ≠ global g) :
    e.Registers k ↔ ∃ d ∈ e.children, d.Registers k := by
  refine ⟨fun h => ?_, fun ⟨d, hd, h⟩ => .child he hd h⟩
  cases h with
  | child _ hd h => exact ⟨_, hd, h⟩
  | extremum _ _ _ => exact absurd rfl (he _)
  | count _ => exact absurd rfl (he _)
  | expanded _ _ => exact absurd rfl (he _)
  | member _ _ _ => exact absurd rfl (he _)

theorem not_registers_of_leaf (he : ∀ g, e ≠ global g) (hleaf : e.children = []) :
    ¬ e.Registers k := by
  rw [registers_iff he, hleaf]
  simp

theorem registers_compare_iff {c : Comparison} {lhs rhs : Expr} :
    (compare c lhs rhs).Registers k ↔ lhs.Registers k ∨ rhs.Registers k := by
  rw [registers_iff (e := .compare c lhs rhs) nofun]
  simp [children]

theorem registers_element_iff {index : Expr} :
    (element es index).Registers k ↔ index.Registers k ∨ ∃ e ∈ es, e.Registers k := by
  rw [registers_iff (e := .element es index) nofun]
  simp [children, or_and_right, exists_or, or_comm]

theorem registers_all_iff : (all es).Registers k ↔ ∃ e ∈ es, e.Registers k := by
  have hop : ∀ (o : Operator) (args : List Expr) (g : Global), op o args ≠ .global g := nofun
  have hoperands : ∀ e : Expr, (∃ d ∈ e.operands .and, d.Registers k) ↔ e.Registers k := by
    intro e
    cases e with
    | op o args =>
      rw [operands]
      split
      · exact (registers_iff (hop o args)).symm
      · simp
    | _ => simp [operands]
  show (op .and _).Registers k ↔ _
  rw [registers_iff (hop _ _)]
  simp only [children, List.mem_flatMap]
  constructor
  · rintro ⟨d, ⟨e, he, hd⟩, h⟩
    exact ⟨e, he, (hoperands e).1 ⟨d, hd, h⟩⟩
  · rintro ⟨e, he, h⟩
    obtain ⟨d, hd, h⟩ := (hoperands e).2 h
    exact ⟨d, ⟨e, he, hd⟩, h⟩

theorem registers_extremum_iff {kind : GlobalKind} (hkind : kind = .min ∨ kind = .max) :
    (global (.plain kind args)).Registers k ↔ ∃ e ∈ args, e.Registers k := by
  refine ⟨fun h => ?_, fun ⟨e, he, h⟩ => .extremum hkind he h⟩
  cases h with
  | child he _ _ => exact absurd rfl (he _)
  | extremum _ hd h => exact ⟨_, hd, h⟩
  | expanded hd _ => rcases hkind with rfl | rfl <;> cases hd
  | member hd _ _ => rcases hkind with rfl | rfl <;> cases hd

theorem registers_count_iff {value : Expr} : (global (.count args value)).Registers k ↔
    (sum (args.map fun a => a.equals value)).Registers k := by
  refine ⟨fun h => ?_, .count⟩
  cases h with
  | child he _ _ => exact absurd rfl (he _)
  | count h => exact h
  | expanded hd _ => cases hd
  | member hd _ _ => cases hd

/-! ## Constraints -/

theorem registersImposed_direct_iff (he : e.IsDirect) : e.RegistersImposed k ↔ e.Registers k := by
  refine ⟨fun h => ?_, .direct he⟩
  cases h with
  | direct _ h => exact h
  | _ => cases he

theorem registersImposed_compare_iff {c : Comparison} {lhs rhs : Expr} :
    (compare c lhs rhs).RegistersImposed k ↔ (compare c lhs rhs).Registers k := by
  refine ⟨fun h => ?_, .compare⟩
  cases h with
  | direct he _ => cases he
  | compare h => exact h

theorem registersImposed_list_iff :
    (list es).RegistersImposed k ↔ ∃ e ∈ es, e.RegistersImposed k := by
  refine ⟨fun h => ?_, fun ⟨e, he, h⟩ => .list he h⟩
  cases h with
  | direct he _ => cases he
  | list hd h => exact ⟨_, hd, h⟩

theorem registersImposed_and_iff :
    (op .and es).RegistersImposed k ↔ ∃ e ∈ es, e.RegistersImposed k := by
  refine ⟨fun h => ?_, fun ⟨e, he, h⟩ => .and he h⟩
  cases h with
  | direct he _ => cases he
  | and hd h => exact ⟨_, hd, h⟩

theorem registersImposed_implies_iff :
    (op .implies [a, b]).RegistersImposed k ↔ a.Registers k ∨ b.RegistersImposed k := by
  refine ⟨fun h => ?_, fun h => h.elim .antecedent .consequent⟩
  cases h with
  | direct he _ => cases he
  | antecedent h => exact .inl h
  | consequent h => exact .inr h

theorem registersImposed_distinct_iff :
    (global (.plain .allDifferent args)).RegistersImposed k ↔ ∃ e ∈ args, e.Registers k := by
  refine ⟨fun h => ?_, fun ⟨e, he, h⟩ => .distinct he h⟩
  cases h with
  | direct he _ => cases he
  | distinct hd h => exact ⟨_, hd, h⟩
  | function hg _ => cases hg
  | expanded hdistinct _ _ => exact absurd rfl (hdistinct _)
  | member hdistinct _ _ _ => exact absurd rfl (hdistinct _)

theorem decompose_of_function (hg : g.isBoolean = false) (n : Nat) : g.decompose n = none := by
  cases g with
  | plain kind args =>
    cases kind with
    | min => rfl
    | max => rfl
    | _ => cases hg
  | count args value => rfl
  | _ => cases hg

theorem registersImposed_function_iff (hg : g.isBoolean = false) :
    (global g).RegistersImposed k ↔ (global g).Registers k := by
  refine ⟨fun h => ?_, .function hg⟩
  cases h with
  | direct he _ => cases he
  | distinct _ _ => cases hg
  | function _ h => exact h
  | expanded _ hd _ => cases (decompose_of_function hg _).symm.trans hd
  | member _ hd _ _ => cases (decompose_of_function hg _).symm.trans hd

/-! ## Cycles -/

theorem mentions_compare_iff {c : Comparison} {lhs rhs : Expr} :
    (compare c lhs rhs).Mentions k ↔ lhs.Mentions k ∨ rhs.Mentions k := by
  simp [Mentions, occurrences, keysOf]

theorem mentions_element_iff {index : Expr} :
    (element es index).Mentions k ↔ (∃ e ∈ es, e.Mentions k) ∨ index.Mentions k := by
  rw [← mem_keysOf_occurrencesInAll]
  simp [Mentions, occurrences, keysOf]

theorem mentions_plain_iff {kind : GlobalKind} :
    (global (.plain kind args)).Mentions k ↔ ∃ e ∈ args, e.Mentions k :=
  mem_keysOf_occurrencesInAll

/-- Lowering the expression registers the variable, or the expression mentions it. -/
def Touches (k : VarKey) (e : Expr) : Prop := e.Mentions k ∨ e.Registers k

theorem touches_compare {c : Comparison} {lhs rhs : Expr} (h : (compare c lhs rhs).Touches k) :
    lhs.Touches k ∨ rhs.Touches k := by
  rcases h with h | h
  · exact (mentions_compare_iff.1 h).imp .inl .inl
  · exact (registers_compare_iff.1 h).imp .inr .inr

theorem touches_distinct (h : (global (.plain .allDifferent es)).Touches k) :
    ∃ e ∈ es, e.Touches k := by
  have hpair : ∀ c ∈ pairwise Expr.differs es, c.Touches k → ∃ e ∈ es, e.Touches k := by
    intro c hc hk
    obtain ⟨a, ha, b, hb, rfl⟩ := mem_pairwise hc
    exact (touches_compare hk).elim (fun h => ⟨a, ha, h⟩) fun h => ⟨b, hb, h⟩
  rcases h with h | h
  · obtain ⟨e, he, h⟩ := mentions_plain_iff.1 h
    exact ⟨e, he, .inl h⟩
  cases h with
  | child he _ _ => exact absurd rfl (he _)
  | extremum hkind _ _ => cases hkind <;> contradiction
  | expanded hd hk =>
    cases hd
    rcases brings_iff.1 hk with hk | ⟨c, hc, hk⟩
    · cases hk
    · exact hpair c hc (.inl hk)
  | member hd hc h =>
    cases hd
    exact hpair _ hc (.inr h)

section Tour

variable {node : Nat → Expr} (hnode : ∀ step, ¬ (node step).Touches k)

include hnode

theorem exists_touches_of_tour (hc : c ∈ tour node args) (h : c.Touches k) :
    ∃ a ∈ args, a.Touches k := by
  refine of_tour (K := fun c => c.Touches k → ∃ a ∈ args, a.Touches k) ?_ ?_ ?_ ?_
    (fun a ha h => ⟨a, ha, h⟩) (fun step _ h => absurd h (hnode step)) c hc h
  · rintro c (h | h)
    · cases h
    · exact absurd h (not_registers_of_leaf nofun rfl)
  · exact fun c a b ha hb h => (touches_compare h).elim ha hb
  · rintro d es e hes he (h | h)
    · rcases mentions_element_iff.1 h with ⟨a, ha, h⟩ | h
      · exact hes a ha (.inl h)
      · exact he (.inl h)
    · rcases registers_element_iff.1 h with h | ⟨a, ha, h⟩
      · exact he (.inr h)
      · exact hes a ha (.inr h)
  · intro es hes h
    obtain ⟨e, he, h⟩ := touches_distinct h
    exact hes e he h

/-- A member of a tour that is imposed registers what the arguments touch. -/
theorem exists_touches_of_imposed (hc : c ∈ tour node args) (h : c.RegistersImposed k) :
    ∃ a ∈ args, a.Touches k := by
  have htouches := exists_touches_of_tour hnode hc
  cases args with
  | nil => cases hc
  | cons first rest =>
    simp only [tour, List.cons_append, List.nil_append, List.mem_cons, List.mem_map] at hc
    rcases hc with rfl | rfl | rfl | rfl | ⟨step, -, rfl⟩
    · obtain ⟨e, he, h⟩ := registersImposed_distinct_iff.1 h
      exact ⟨e, he, .inr h⟩
    · obtain ⟨e, he, h⟩ := registersImposed_distinct_iff.1 h
      obtain ⟨step, -, rfl⟩ := List.mem_map.1 he
      exact absurd (.inr h) (hnode step)
    · exact htouches (.inr (registersImposed_compare_iff.1 h))
    · exact htouches (.inr (registersImposed_compare_iff.1 h))
    · exact htouches (.inr (registersImposed_compare_iff.1 h))

end Tour

/-- Every argument of a cycle stands in a comparison among the members. -/
theorem exists_compare_of_mem_tour (node : Nat → Expr) (ha : a ∈ args) :
    ∃ c lhs rhs, compare c lhs rhs ∈ tour node args ∧
      (a.Mentions k → (compare c lhs rhs).Mentions k) ∧
      (a.Registers k → (compare c lhs rhs).Registers k) := by
  cases args with
  | nil => cases ha
  | cons first rest =>
    by_cases hfirst : a = first
    · subst hfirst
      refine ⟨.eq, node 0, a, by simp [tour, equals], ?_, ?_⟩
      · exact fun h => mentions_compare_iff.2 (.inr h)
      · exact fun h => registers_compare_iff.2 (.inr h)
    · have hrest : a ∈ rest := (List.mem_cons.1 ha).resolve_left hfirst
      have hlength : 0 < rest.length := List.length_pos_of_mem hrest
      refine ⟨.eq, node 1, .element (first :: rest) (node 0), ?_, ?_, ?_⟩
      · simp only [tour, List.cons_append, List.nil_append, List.mem_cons, List.mem_map]
        exact .inr (.inr (.inr (.inr ⟨0, List.mem_range.2 (by simpa using hlength), rfl⟩)))
      · exact fun h => mentions_compare_iff.2 (.inr (mentions_element_iff.2 (.inl ⟨a, ha, h⟩)))
      · exact fun h => registers_compare_iff.2 (.inr (registers_element_iff.2 (.inr ⟨a, ha, h⟩)))

theorem not_touches_orderVar (hk : k.IsDeclared) (firstColumn size step : Nat) :
    ¬ (var (orderVar firstColumn size step)).Touches k := by
  rintro (h | h)
  · obtain ⟨number, hnumber⟩ := hk
    rw [List.mem_singleton.1 h] at hnumber
    cases hnumber
  · exact not_registers_of_leaf (e := .var _) nofun rfl h

/-- What the members of a cycle mention is mentioned by an argument, wherever the cycle is. -/
theorem brings_circuit (hk : k.IsDeclared) (h : (circuitDecomposition n args).Brings k) :
    ∃ a ∈ args, a.Touches k := by
  rcases brings_iff.1 h with h | ⟨c, hc, h⟩
  · obtain ⟨v, hv, rfl⟩ := List.mem_map.1 h
    obtain ⟨number, hnumber⟩ := hk
    cases args with
    | nil => cases hv
    | cons first rest =>
      obtain ⟨step, -, rfl⟩ := List.mem_map.1 hv
      cases hnumber
  · rw [circuitDecomposition_eq_tour] at hc
    exact exists_touches_of_tour (not_touches_orderVar hk n args.length) hc (.inl h)

/-- A variable that an argument of a cycle touches is brought or registered by the members. -/
theorem brings_or_exists_compare (n : Nat) (h : ∃ a ∈ args, a.Touches k) :
    (circuitDecomposition n args).Brings k ∨
      ∃ c lhs rhs, compare c lhs rhs ∈ (circuitDecomposition n args).constraints ∧
        (compare c lhs rhs).Registers k := by
  obtain ⟨a, ha, h⟩ := h
  obtain ⟨c, lhs, rhs, hmem, hmentions, hregisters⟩ :=
    exists_compare_of_mem_tour (fun step => .var (orderVar n args.length step)) ha
  rw [← circuitDecomposition_eq_tour] at hmem
  exact h.imp (fun h => brings_iff.2 (.inr ⟨_, hmem, hmentions h⟩)) fun h =>
    ⟨c, lhs, rhs, hmem, hregisters h⟩

/-! ## Decompositions -/

/-- Wherever a global is expanded, the same declared variables are registered. Only cycles have
different decompositions, and there it is what the arguments touch. -/
theorem registers_of_decompose {R : Expr → Prop} {m : Nat} {D : Decomposition} (hk : k.IsDeclared)
    (htour : ∀ {node : Nat → Expr} {args : List Expr} {c : Expr},
      (∀ step, ¬ (node step).Touches k) → c ∈ tour node args → R c → ∃ a ∈ args, a.Touches k)
    (hcompare : ∀ c lhs rhs, (compare c lhs rhs).Registers k → R (compare c lhs rhs))
    (hD : g.decompose m = some D) (hd : g.decompose n = some d) (h : D.Registers R k) :
    d.Registers R k := by
  by_cases hcircuit : ∃ args, g = .plain .circuit args
  · obtain ⟨args, rfl⟩ := hcircuit
    cases hd
    cases hD
    have htouches : ∃ a ∈ args, a.Touches k := by
      refine h.elim (brings_circuit hk) fun ⟨c, hc, h⟩ => ?_
      rw [circuitDecomposition_eq_tour] at hc
      exact htour (not_touches_orderVar hk m args.length) hc h
    exact (brings_or_exists_compare n htouches).imp_right fun ⟨c, lhs, rhs, hc, h⟩ =>
      ⟨_, hc, hcompare c lhs rhs h⟩
  · rw [decompose_eq_of_ne_circuit (not_exists.1 hcircuit) m n, hd] at hD
    cases hD
    exact h

theorem registers_expanded_iff (hk : k.IsDeclared) (hd : g.decompose n = some d) :
    (global g).Registers k ↔ d.Registers (Registers k) k := by
  refine ⟨fun h => ?_, fun h => h.elim (.expanded hd) fun ⟨c, hc, h⟩ => .member hd hc h⟩
  have hother : ∀ {m D}, g.decompose m = some D → D.Registers (Registers k) k →
      d.Registers (Registers k) k := fun hD =>
    registers_of_decompose hk (fun hnode hc h => exists_touches_of_tour hnode hc (.inr h))
      (fun _ _ _ h => h) hD hd
  cases h with
  | child he _ _ => exact absurd rfl (he _)
  | extremum hkind _ _ => rcases hkind with rfl | rfl <;> cases hd
  | count _ => cases hd
  | expanded hD hk => exact hother hD (.inl hk)
  | member hD hc h => exact hother hD (.inr ⟨_, hc, h⟩)

theorem registersImposed_expanded_iff (hk : k.IsDeclared)
    (hdistinct : ∀ args, g ≠ .plain .allDifferent args) (hd : g.decompose n = some d) :
    (global g).RegistersImposed k ↔ d.Registers (RegistersImposed k) k := by
  refine ⟨fun h => ?_, fun h => h.elim (.expanded hdistinct hd) fun ⟨c, hc, h⟩ =>
    .member hdistinct hd hc h⟩
  have hother : ∀ {m D}, g.decompose m = some D → D.Registers (RegistersImposed k) k →
      d.Registers (RegistersImposed k) k := fun hD =>
    registers_of_decompose hk exists_touches_of_imposed (fun _ _ _ h => .compare h) hD hd
  cases h with
  | direct he _ => cases he
  | distinct _ _ => exact absurd rfl (hdistinct _)
  | function hg _ => cases (decompose_of_function hg n).symm.trans hd
  | expanded _ hD hk => exact hother hD (.inl hk)
  | member _ hD hc h => exact hother hD (.inr ⟨_, hc, h⟩)

end Expr

end Linearization
