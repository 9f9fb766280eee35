import Linearization.Model
import Linearization.Proofs.Expr.Decomposition

/-!
# Parts of expressions

The shapes that are checked are those of the nodes, which are reached through subexpressions. A
translation goes further: it follows the decompositions that constraints come with. What it can
reach is a part of the expression (`Expr.HasPart`), and a part is a node or stands in a
decomposition (`HasPart.mem_nodes_or`).

The members of a decomposition are made of parts of the global and of new nodes that have no problem
of their own (`AllParts.decompose`).
-/

namespace Linearization

open Linearization.Valuation (keysOf)

namespace Expr

/-- The expression itself, or what is reached through subexpressions and members of decompositions.
-/
inductive HasPart : Expr → Expr → Prop where
  | refl (e : Expr) : HasPart e e
  | child {e d n : Expr} (hd : d ∈ e.children) (h : HasPart d n) : HasPart e n
  | member {g : Global} {d n : Expr} (hd : d ∈ g.members) (h : HasPart d n) : HasPart (.global g) n

/-- The node is a part of a member of a decomposition that the expression contains. -/
def HasInner (e n : Expr) : Prop := ∃ g, e.HasPart (.global g) ∧ ∃ d ∈ g.members, d.HasPart n

/-- A decomposition that the expression contains introduces the variable. -/
def Introduces (e : Expr) (k : VarKey) : Prop := ∃ g, e.HasPart (.global g) ∧ k ∈ keysOf g.newVars

/-- Every part of the expression has the property. -/
def AllParts (P : Expr → Prop) (e : Expr) : Prop := ∀ n, e.HasPart n → P n

variable {P : Expr → Prop} {e d n : Expr} {es : List Expr} {g : Global} {k : VarKey}

/-! ## Nodes -/

theorem nodesOfAll_eq_flatMap (es : List Expr) : nodesOfAll es = es.flatMap nodes := by
  induction es with
  | nil => rfl
  | cons e es ih => rw [nodesOfAll, ih, List.flatMap_cons]

theorem nodes_eq (e : Expr) : e.nodes = e :: nodesOfAll e.children := by
  cases e with
  | compare c lhs rhs => simp [nodes, children, nodesOfAll]
  | element array index => simp [nodes, children, nodesOfAll_eq_flatMap]
  | global g =>
    rw [nodes]
    cases g with
    | count args value => simp [Global.nodes, children, Global.args, nodesOfAll_eq_flatMap]
    | cardinality args values counts =>
      simp [Global.nodes, children, Global.args, nodesOfAll_eq_flatMap]
    | _ => rfl
  | _ => rfl

theorem mem_nodesOfAll : n ∈ nodesOfAll es ↔ ∃ e ∈ es, n ∈ e.nodes := by
  rw [nodesOfAll_eq_flatMap, List.mem_flatMap]

theorem HasInner.child (hd : d ∈ e.children) (h : d.HasInner n) : e.HasInner n := by
  obtain ⟨g, hg, hmember⟩ := h
  exact ⟨g, .child hd hg, hmember⟩

/-- A part is a node, or it stands in a decomposition. -/
theorem HasPart.mem_nodes_or (h : e.HasPart n) : n ∈ e.nodes ∨ e.HasInner n := by
  induction h with
  | refl e =>
    rw [nodes_eq]
    exact .inl List.mem_cons_self
  | @child e d n hd _ ih =>
    rw [nodes_eq]
    refine ih.imp (fun hn => List.mem_cons_of_mem _ ?_) (.child hd)
    exact mem_nodesOfAll.2 ⟨d, hd, hn⟩
  | @member g d n hd h _ => exact .inr ⟨g, .refl _, d, hd, h⟩

/-! ## All parts -/

namespace AllParts

theorem child (h : e.AllParts P) (hd : d ∈ e.children) : d.AllParts P :=
  fun n hn => h n (.child hd hn)

theorem member (h : (global g).AllParts P) (hd : d ∈ g.members) : d.AllParts P :=
  fun n hn => h n (.member hd hn)

theorem of_children (h : P e) (hchildren : ∀ d ∈ e.children, d.AllParts P)
    (hmembers : ∀ g, e = global g → ∀ d ∈ g.members, d.AllParts P) : e.AllParts P := by
  intro n hn
  cases hn with
  | refl => exact h
  | child hd hn => exact hchildren _ hd n hn
  | member hd hn => exact hmembers _ rfl _ hd n hn

section

variable (hP : ∀ e : Expr, e.problem? = none → (∀ args, e ≠ global (.plain .circuit args)) → P e)

include hP

theorem op_pair {o : Operator} {a b : Expr} (ho : (op o [a, b]).problem? = none)
    (ha : a.AllParts P) (hb : b.AllParts P) : (op o [a, b]).AllParts P :=
  of_children (hP _ ho nofun) (List.forall_mem_cons.2 ⟨ha, List.forall_mem_singleton.2 hb⟩) nofun

theorem compare (c : Comparison) {a b : Expr} (ha : a.AllParts P) (hb : b.AllParts P) :
    (Expr.compare c a b).AllParts P :=
  of_children (hP _ rfl nofun) (List.forall_mem_cons.2 ⟨ha, List.forall_mem_singleton.2 hb⟩) nofun

theorem element (hes : ∀ e ∈ d :: es, e.AllParts P) (he : e.AllParts P) :
    (Expr.element (d :: es) e).AllParts P :=
  of_children (hP _ rfl nofun)
    (List.forall_mem_append.2 ⟨hes, List.forall_mem_singleton.2 he⟩) nofun

theorem count (hes : ∀ e ∈ es, e.AllParts P) (he : e.AllParts P) :
    (global (.count es e)).AllParts P := by
  refine of_children (hP _ rfl nofun)
    (List.forall_mem_append.2 ⟨hes, List.forall_mem_singleton.2 he⟩) fun g hg => ?_
  cases hg
  exact List.forall_mem_nil _

theorem allDifferent (hes : ∀ e ∈ es, e.AllParts P) :
    (global (.plain .allDifferent es)).AllParts P := by
  refine of_children (hP _ rfl nofun) hes fun g hg => ?_
  cases hg
  exact List.forall_mem_nil _

theorem leaf (h : e.problem? = none) (hchildren : e.children = [])
    (hglobal : ∀ g, e ≠ .global g) : e.AllParts P :=
  of_children (hP _ h fun _ => hglobal _) (hchildren ▸ List.forall_mem_nil _) fun g hg =>
    absurd hg (hglobal g)

/-- What is true of nodes without a problem, apart from cycles, and of all parts of a global is true
of all parts of the members of its decomposition. -/
theorem decompose {m : Nat} {c : Decomposition} (hg : (global g).AllParts P)
    (h : g.decompose m = some c) : ∀ e ∈ c.constraints, e.AllParts P :=
  of_decompose (fun _ => leaf hP rfl rfl nofun) (fun c _ _ => compare hP c)
    (fun _ _ => op_pair hP rfl) (fun _ _ => op_pair hP rfl) (fun _ _ _ => element hP)
    (fun _ _ => count hP) (fun _ => allDifferent hP) h (fun _ he => hg.child he)
    (fun _ he => hg.member he) fun _ _ => leaf hP rfl rfl nofun

theorem all (h : ∀ e ∈ es, e.AllParts P) : (Expr.all es).AllParts P :=
  Expr.forall_all (fun _ => ⟨fun hop _ ha => hop.child ha,
    fun hargs => of_children (hP _ rfl nofun) hargs nofun⟩) h

end

end AllParts

/-! ## Variables -/

theorem Introduces.child (hd : d ∈ e.children) (h : d.Introduces k) : e.Introduces k := by
  obtain ⟨g, hg, hk⟩ := h
  exact ⟨g, .child hd hg, hk⟩

theorem Introduces.member (hd : d ∈ g.members) (h : d.Introduces k) :
    (global g).Introduces k := by
  obtain ⟨g', hg, hk⟩ := h
  exact ⟨g', .member hd hg, hk⟩

/-- What occurs in the expression, what is hidden and what its decompositions introduce has the
property. -/
structure Accounts (R : VarKey → Prop) (hidden : List VarKey) (e : Expr) : Prop where
  occurrences : ∀ v ∈ e.occurrences hidden, R v.toVarKey
  hidden : ∀ k ∈ hidden, R k
  introduced : ∀ k, e.Introduces k → R k

namespace Accounts

variable {R : VarKey → Prop} {hidden : List VarKey}

theorem child (h : e.Accounts R hidden) (hd : d ∈ e.children) : d.Accounts R hidden where
  occurrences v hv := h.occurrences v (mem_occurrences_of_child hd hv)
  hidden := h.hidden
  introduced k hk := h.introduced k (hk.child hd)

theorem newVars (h : (global g).Accounts R hidden) : ∀ k ∈ keysOf g.newVars, R k :=
  fun k hk => h.introduced k ⟨g, .refl _, hk⟩

theorem member (h : (global g).Accounts R hidden) (hd : d ∈ g.members) :
    d.Accounts R (hidden ++ keysOf g.newVars) where
  occurrences v hv := h.occurrences v (mem_occurrences_of_member hd hv)
  hidden := List.forall_mem_append.2 ⟨h.hidden, h.newVars⟩
  introduced k hk := h.introduced k (hk.member hd)

theorem var {v : Var} (h : e.Accounts R hidden)
    (he : e.occurrences hidden = if v.toVarKey ∈ hidden then [] else [v]) : R v.toVarKey := by
  by_cases hv : v.toVarKey ∈ hidden
  · exact h.hidden _ hv
  · refine h.occurrences v ?_
    rw [he, if_neg hv]
    exact List.mem_singleton_self v

/-- Every variable in the expression and in its decompositions is accounted for. -/
theorem allVars (h : e.Accounts R hidden) : e.AllVars fun v => R v.toVarKey := by
  induction e using Expr.induction generalizing hidden with
  | const c => exact .const c
  | var v => exact .var (h.var rfl)
  | complement v => exact .complement (h.var rfl)
  | list es ih => exact .list fun e he => ih e he (h.child he)
  | op o args ih => exact .op fun e he => ih e he (h.child he)
  | compare c lhs rhs ihl ihr =>
    exact .compare (ihl (h.child List.mem_cons_self))
      (ihr (h.child (List.mem_cons_of_mem _ (List.mem_singleton_self rhs))))
  | element array index iha ihi =>
    exact .element (fun e he => iha e he (h.child (List.mem_append_left _ he)))
      (ihi (h.child (List.mem_append_right _ (List.mem_singleton_self index))))
  | global g iha ihm =>
    exact .global (fun e he => iha e he (h.child he)) (fun e he => ihm e he (h.member he))
      fun v hv => h.newVars _ (List.mem_map_of_mem hv)

end Accounts

end Expr

end Linearization
