import Linearization.Proofs.Expr.Shape
import Linearization.Proofs.Expr.Decomposition
import Mathlib.Data.List.Forall2

/-!
# Expressions alike

A decomposition numbers the variables that it introduces by the columns of the program, so the same
global is decomposed differently in different programs. `Expr.Alike V e e'` says that two
expressions differ in their variables alone, which correspond under `V`. Globals that are alike have
decompositions that are alike, where the variables introduced for a cycle correspond step by step
(`Global.Alike.decompose`).
-/

namespace Linearization

mutual

/-- The expressions differ in their variables alone, which correspond. -/
inductive Expr.Alike (V : VarKey → VarKey → Prop) : Expr → Expr → Prop where
  | const (c : Int) : Expr.Alike V (.const c) (.const c)
  | var {v v' : Var} (h : V v.toVarKey v'.toVarKey) : Expr.Alike V (.var v) (.var v')
  | complement {v v' : Var} (h : V v.toVarKey v'.toVarKey) :
    Expr.Alike V (.complement v) (.complement v')
  | list {es es' : List Expr} (h : List.Forall₂ (Expr.Alike V) es es') :
    Expr.Alike V (.list es) (.list es')
  | op (o : Operator) {args args' : List Expr} (h : List.Forall₂ (Expr.Alike V) args args') :
    Expr.Alike V (.op o args) (.op o args')
  | compare (c : Comparison) {lhs lhs' rhs rhs' : Expr} (hl : Expr.Alike V lhs lhs')
    (hr : Expr.Alike V rhs rhs') : Expr.Alike V (.compare c lhs rhs) (.compare c lhs' rhs')
  | element {array array' : List Expr} {index index' : Expr}
    (ha : List.Forall₂ (Expr.Alike V) array array') (hi : Expr.Alike V index index') :
    Expr.Alike V (.element array index) (.element array' index')
  | global {g g' : Global} (h : Global.Alike V g g') : Expr.Alike V (.global g) (.global g')

/-- The globals differ in their variables alone, which correspond. -/
inductive Global.Alike (V : VarKey → VarKey → Prop) : Global → Global → Prop where
  | plain (kind : GlobalKind) {args args' : List Expr}
    (h : List.Forall₂ (Expr.Alike V) args args') :
    Global.Alike V (.plain kind args) (.plain kind args')
  | count {args args' : List Expr} {value value' : Expr}
    (h : List.Forall₂ (Expr.Alike V) args args') (hv : Expr.Alike V value value') :
    Global.Alike V (.count args value) (.count args' value')
  | cardinality (values : List Int) {args args' counts counts' : List Expr}
    (h : List.Forall₂ (Expr.Alike V) args args') (hc : List.Forall₂ (Expr.Alike V) counts counts') :
    Global.Alike V (.cardinality args values counts) (.cardinality args' values counts')
  | named (name : String) {args args' : List Expr} (h : List.Forall₂ (Expr.Alike V) args args') :
    Global.Alike V (.named name args) (.named name args')
  | defined (name : String) {args args' constraints constraints' : List Expr}
    {newVars newVars' : List Var} (h : List.Forall₂ (Expr.Alike V) args args')
    (hc : List.Forall₂ (Expr.Alike V) constraints constraints')
    (hn : List.Forall₂ (fun v v' : Var => V v.toVarKey v'.toVarKey) newVars newVars') :
    Global.Alike V (.defined name args constraints newVars)
      (.defined name args' constraints' newVars')

end

variable {V V' : VarKey → VarKey → Prop} {e e' : Expr} {es es' : List Expr} {g g' : Global}

/-! ## Correspondences -/

mutual

theorem Expr.Alike.mono (hle : ∀ k k', V k k' → V' k k') : ∀ {e e' : Expr}, e.Alike V e' →
    e.Alike V' e'
  | _, _, .const c => .const c
  | _, _, .var h => .var (hle _ _ h)
  | _, _, .complement h => .complement (hle _ _ h)
  | _, _, .list h => .list (alikeAll_mono hle h)
  | _, _, .op o h => .op o (alikeAll_mono hle h)
  | _, _, .compare c hl hr => .compare c (hl.mono hle) (hr.mono hle)
  | _, _, .element ha hi => .element (alikeAll_mono hle ha) (hi.mono hle)
  | _, _, .global h => .global (h.mono hle)

theorem Global.Alike.mono (hle : ∀ k k', V k k' → V' k k') : ∀ {g g' : Global}, g.Alike V g' →
    g.Alike V' g'
  | _, _, .plain kind h => .plain kind (alikeAll_mono hle h)
  | _, _, .count h hv => .count (alikeAll_mono hle h) (hv.mono hle)
  | _, _, .cardinality values h hc =>
    .cardinality values (alikeAll_mono hle h) (alikeAll_mono hle hc)
  | _, _, .named name h => .named name (alikeAll_mono hle h)
  | _, _, .defined name h hc hn => .defined name (alikeAll_mono hle h) (alikeAll_mono hle hc)
    (hn.imp fun _ _ h => hle _ _ h)

theorem alikeAll_mono (hle : ∀ k k', V k k' → V' k k') : ∀ {es es' : List Expr},
    List.Forall₂ (Expr.Alike V) es es' → List.Forall₂ (Expr.Alike V') es es'
  | _, _, .nil => .nil
  | _, _, .cons h hs => .cons (h.mono hle) (alikeAll_mono hle hs)

end

theorem Expr.Alike.refl (h : e.AllVars fun v => V v.toVarKey v.toVarKey) : e.Alike V e := by
  induction e using Expr.induction with
  | const c => exact .const c
  | var v =>
    cases h with
    | var h => exact .var h
  | complement v =>
    cases h with
    | complement h => exact .complement h
  | list es ih =>
    cases h with
    | list h => exact .list (List.forall₂_same.2 fun e he => ih e he (h e he))
  | op o args ih =>
    cases h with
    | op h => exact .op o (List.forall₂_same.2 fun e he => ih e he (h e he))
  | compare c lhs rhs ihl ihr =>
    cases h with
    | compare hl hr => exact .compare c (ihl hl) (ihr hr)
  | element array index iha ihi =>
    cases h with
    | element ha hi => exact .element (List.forall₂_same.2 fun e he => iha e he (ha e he)) (ihi hi)
  | global g iha ihm =>
    cases h with
    | global hargs hmembers hnew =>
      have hargs' : ∀ e ∈ g.args, e.Alike V e := fun e he => iha e he (hargs e he)
      have hmembers' : ∀ e ∈ g.members, e.Alike V e := fun e he => ihm e he (hmembers e he)
      cases g with
      | plain kind args => exact .global (.plain kind (List.forall₂_same.2 hargs'))
      | count args value =>
        obtain ⟨hargs', hvalue⟩ := List.forall_mem_append.1 hargs'
        exact .global (.count (List.forall₂_same.2 hargs')
          (hvalue value (List.mem_singleton_self value)))
      | cardinality args values counts =>
        obtain ⟨hargs', hcounts⟩ := List.forall_mem_append.1 hargs'
        exact .global (.cardinality values (List.forall₂_same.2 hargs')
          (List.forall₂_same.2 hcounts))
      | named name args => exact .global (.named name (List.forall₂_same.2 hargs'))
      | defined name args constraints newVars =>
        exact .global (.defined name (List.forall₂_same.2 hargs') (List.forall₂_same.2 hmembers')
          (List.forall₂_same.2 hnew))

theorem forall_mem_of_forall₂ {α β : Type} {R : α → β → Prop} {P : α → Prop} {Q : β → Prop}
    {as : List α} {bs : List β} (hR : ∀ a b, R a b → P a ∧ Q b) (h : List.Forall₂ R as bs) :
    (∀ a ∈ as, P a) ∧ ∀ b ∈ bs, Q b := by
  induction h with
  | nil => exact ⟨List.forall_mem_nil _, List.forall_mem_nil _⟩
  | cons hab _ ih =>
    exact ⟨List.forall_mem_cons.2 ⟨(hR _ _ hab).1, ih.1⟩,
      List.forall_mem_cons.2 ⟨(hR _ _ hab).2, ih.2⟩⟩

section Variables

variable {P P' : VarKey → Prop} (hV : ∀ k k', V k k' → P k ∧ P' k')

include hV

set_option linter.unusedSectionVars false

mutual

theorem Expr.Alike.allVars : ∀ {e e' : Expr}, e.Alike V e' →
    (e.AllVars fun v => P v.toVarKey) ∧ e'.AllVars fun v => P' v.toVarKey
  | _, _, .const c => ⟨.const c, .const c⟩
  | _, _, .var h => ⟨.var (hV _ _ h).1, .var (hV _ _ h).2⟩
  | _, _, .complement h => ⟨.complement (hV _ _ h).1, .complement (hV _ _ h).2⟩
  | _, _, .list h => ⟨.list (allVars_of_alikeAll h).1, .list (allVars_of_alikeAll h).2⟩
  | _, _, .op _ h => ⟨.op (allVars_of_alikeAll h).1, .op (allVars_of_alikeAll h).2⟩
  | _, _, .compare _ hl hr =>
    ⟨.compare hl.allVars.1 hr.allVars.1, .compare hl.allVars.2 hr.allVars.2⟩
  | _, _, .element ha hi =>
    ⟨.element (allVars_of_alikeAll ha).1 hi.allVars.1,
      .element (allVars_of_alikeAll ha).2 hi.allVars.2⟩
  | _, _, .global h => h.allVars

theorem Global.Alike.allVars : ∀ {g g' : Global}, g.Alike V g' →
    ((Expr.global g).AllVars fun v => P v.toVarKey) ∧
      (Expr.global g').AllVars fun v => P' v.toVarKey
  | _, _, .plain _ h =>
    have hargs := allVars_of_alikeAll h
    ⟨.global hargs.1 (List.forall_mem_nil _) (List.forall_mem_nil _),
      .global hargs.2 (List.forall_mem_nil _) (List.forall_mem_nil _)⟩
  | _, _, .count h hv =>
    have hargs := allVars_of_alikeAll h
    have hvalue := hv.allVars
    ⟨.global (List.forall_mem_append.2 ⟨hargs.1, List.forall_mem_singleton.2 hvalue.1⟩)
        (List.forall_mem_nil _) (List.forall_mem_nil _),
      .global (List.forall_mem_append.2 ⟨hargs.2, List.forall_mem_singleton.2 hvalue.2⟩)
        (List.forall_mem_nil _) (List.forall_mem_nil _)⟩
  | _, _, .cardinality _ h hc =>
    have hargs := allVars_of_alikeAll h
    have hcounts := allVars_of_alikeAll hc
    ⟨.global (List.forall_mem_append.2 ⟨hargs.1, hcounts.1⟩) (List.forall_mem_nil _)
        (List.forall_mem_nil _),
      .global (List.forall_mem_append.2 ⟨hargs.2, hcounts.2⟩) (List.forall_mem_nil _)
        (List.forall_mem_nil _)⟩
  | _, _, .named _ h =>
    have hargs := allVars_of_alikeAll h
    ⟨.global hargs.1 (List.forall_mem_nil _) (List.forall_mem_nil _),
      .global hargs.2 (List.forall_mem_nil _) (List.forall_mem_nil _)⟩
  | _, _, .defined _ h hc hn =>
    have hargs := allVars_of_alikeAll h
    have hmembers := allVars_of_alikeAll hc
    have hnew := forall_mem_of_forall₂ (P := fun v : Var => P v.toVarKey)
      (Q := fun v : Var => P' v.toVarKey) (fun _ _ => hV _ _) hn
    ⟨.global hargs.1 hmembers.1 hnew.1, .global hargs.2 hmembers.2 hnew.2⟩

theorem allVars_of_alikeAll : ∀ {es es' : List Expr}, List.Forall₂ (Expr.Alike V) es es' →
    (∀ e ∈ es, e.AllVars fun v => P v.toVarKey) ∧ ∀ e ∈ es', e.AllVars fun v => P' v.toVarKey
  | _, _, .nil => ⟨List.forall_mem_nil _, List.forall_mem_nil _⟩
  | _, _, .cons h hs =>
    have hfirst := h.allVars
    have hrest := allVars_of_alikeAll hs
    ⟨List.forall_mem_cons.2 ⟨hfirst.1, hrest.1⟩, List.forall_mem_cons.2 ⟨hfirst.2, hrest.2⟩⟩

end

end Variables

/-! ## Decompositions -/

theorem alike_operands (o : Operator) (h : e.Alike V e') :
    List.Forall₂ (Expr.Alike V) (e.operands o) (e'.operands o) := by
  cases h with
  | @op inner args args' h =>
    show List.Forall₂ _ (if inner = o then args else [.op inner args])
      (if inner = o then args' else [.op inner args'])
    split
    · exact h
    · exact .cons (.op inner h) .nil
  | const c => exact .cons (.const c) .nil
  | var h => exact .cons (.var h) .nil
  | complement h => exact .cons (.complement h) .nil
  | list h => exact .cons (.list h) .nil
  | compare c hl hr => exact .cons (.compare c hl hr) .nil
  | element ha hi => exact .cons (.element ha hi) .nil
  | global h => exact .cons (.global h) .nil

theorem alike_nary (o : Operator) (h : List.Forall₂ (Expr.Alike V) es es') :
    (Expr.nary o es).Alike V (.nary o es') :=
  .op o (List.rel_flatMap h fun _ _ h => alike_operands o h)

theorem forall₂_zipWith {α α' β β' γ γ' : Type} {R : α → α' → Prop} {S : β → β' → Prop}
    {T : γ → γ' → Prop} {f : α → β → γ} {f' : α' → β' → γ'} {as : List α} {as' : List α'}
    {bs : List β} {bs' : List β'} (hf : ∀ a a' b b', R a a' → S b b' → T (f a b) (f' a' b'))
    (ha : List.Forall₂ R as as') (hb : List.Forall₂ S bs bs') :
    List.Forall₂ T (as.zipWith f bs) (as'.zipWith f' bs') := by
  induction ha generalizing bs bs' with
  | nil => exact .nil
  | cons ha _ ih =>
    cases hb with
    | nil => exact .nil
    | cons hb hbs => exact .cons (hf _ _ _ _ ha hb) (ih hbs)

section Decomposition

variable {f f' : Expr → Expr → Expr}
  (hf : ∀ a a' b b', Expr.Alike V a a' → Expr.Alike V b b' → Expr.Alike V (f a b) (f' a' b'))

include hf

theorem alike_pairwise (h : List.Forall₂ (Expr.Alike V) es es') :
    List.Forall₂ (Expr.Alike V) (pairwise f es) (pairwise f' es') := by
  induction h with
  | nil => exact .nil
  | cons he hes ih => exact List.rel_append (List.rel_map (fun _ _ hb => hf _ _ _ _ he hb) hes) ih

theorem alike_consecutive (h : List.Forall₂ (Expr.Alike V) es es') :
    List.Forall₂ (Expr.Alike V) (consecutive f es) (consecutive f' es') := by
  refine forall₂_zipWith hf h ?_
  cases h with
  | nil => exact .nil
  | cons _ hes => exact hes

end Decomposition

theorem alike_tour {node node' : Nat → Expr} (h : List.Forall₂ (Expr.Alike V) es es')
    (hnode : ∀ step < es.length, (node step).Alike V (node' step)) :
    List.Forall₂ (Expr.Alike V) (tour node es) (tour node' es') := by
  cases h with
  | nil => exact .nil
  | @cons first first' rest rest' hfirst hrest =>
    have hargs : List.Forall₂ (Expr.Alike V) (first :: rest) (first' :: rest') := .cons hfirst hrest
    have hlength : rest.length = rest'.length := hrest.length_eq
    have hsteps : ∀ {n : Nat} {f f' : Nat → Expr}, (∀ step < n, (f step).Alike V (f' step)) →
        List.Forall₂ (Expr.Alike V) ((List.range n).map f) ((List.range n).map f') := by
      intro n f f' hf
      rw [List.forall₂_map_left_iff, List.forall₂_map_right_iff, List.forall₂_same]
      exact fun step hstep => hf step (List.mem_range.1 hstep)
    simp only [List.length_cons] at hnode
    simp only [tour, List.length_cons, ← hlength]
    refine List.rel_append ?_ (hsteps fun step hstep => ?_)
    · exact .cons (.global (.plain _ hargs)) (.cons (.global (.plain _ (hsteps hnode)))
        (.cons (.compare .eq (hnode _ (by omega)) (.const 0))
          (.cons (.compare .eq (hnode 0 (by omega)) hfirst) .nil)))
    · exact .compare .eq (hnode _ (by omega)) (.element hargs (hnode _ (by omega)))

/-- Globals that are alike have decompositions that are alike, with the variables introduced for the
nodes of a cycle matched step by step. -/
theorem Global.Alike.decompose {n n' : Nat} {d : Decomposition} (hg : g.Alike V g')
    (hle : ∀ k k', V k k' → V' k k') (hd : g.decompose n = some d)
    (horder : ∀ args, g = .plain .circuit args → ∀ step < args.length,
      V' (orderVar n args.length step).toVarKey (orderVar n' args.length step).toVarKey) :
    ∃ d', g'.decompose n' = some d' ∧
      List.Forall₂ (Expr.Alike V') d.constraints d'.constraints := by
  replace hg := hg.mono hle
  cases hg with
  | plain kind h =>
    cases kind with
    | allDifferent =>
      cases hd
      exact ⟨_, rfl, alike_pairwise (fun _ _ _ _ ha hb => .compare .ne ha hb) h⟩
    | allDifferentExceptZero =>
      cases hd
      refine ⟨_, rfl, alike_pairwise (fun _ _ _ _ ha hb => ?_) h⟩
      have hnonzero := alike_nary .and
        (.cons (.compare .ne ha (.const 0)) (.cons (.compare .ne hb (.const 0)) .nil))
      exact .op .implies (.cons hnonzero (.cons (.compare .ne ha hb) .nil))
    | allEqual =>
      cases hd
      exact ⟨_, rfl, alike_consecutive (fun _ _ _ _ ha hb => .compare .eq ha hb) h⟩
    | circuit =>
      cases hd
      refine ⟨_, rfl, ?_⟩
      rw [circuitDecomposition_eq_tour, circuitDecomposition_eq_tour, ← h.length_eq]
      exact alike_tour h fun step hstep => .var (horder _ rfl step hstep)
    | min => cases hd
    | max => cases hd
  | count h hv => cases hd
  | cardinality values h hc =>
    cases hd
    refine ⟨_, rfl, forall₂_zipWith (R := Eq) (fun v _ c c' hv hc => ?_)
      (List.forall₂_same.2 fun _ _ => rfl) hc⟩
    obtain rfl := hv
    exact .compare .eq hc (.global (.count h (.const v)))
  | named name h => cases hd
  | defined name h hc hn =>
    cases hd
    exact ⟨_, rfl, hc⟩

end Linearization
