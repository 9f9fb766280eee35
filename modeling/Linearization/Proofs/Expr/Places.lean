import Linearization.Model
import Linearization.Proofs.Expr.Frame
import Mathlib.Data.List.Forall2

/-!
# The variables that can be seen in a model

A place in an expression is reached by steps, each to a direct subexpression or to a constraint of a
decomposition that the expression comes with (`Step`). A variable can be seen at a place where it or
its complement stands, unless a decomposition on the way introduces it (`Expr.VisibleAt`).

1. Places are compared step by step, decompositions before subexpressions (`Precedes`).
2. The occurrences of an expression are what can be seen in it, in the order of the places
   (`exists_sightings`).
3. The variables of a model are those that can be seen in it, each once and in the order of the first
   places where they can be seen (`Model.vars_exact`).
-/

namespace Linearization

open Linearization.Valuation (keysOf)

/-! ## Places -/

/-- A step to a constraint of the decomposition that an expression comes with, or to a direct
subexpression. -/
inductive Step where
  | member (i : Nat)
  | child (i : Nat)
  deriving DecidableEq, Repr

/-- The first step is taken before the second one. -/
inductive Step.Before : Step → Step → Prop where
  | members {i j : Nat} (h : i < j) : Before (member i) (member j)
  | memberChild (i j : Nat) : Before (member i) (child j)
  | children {i j : Nat} (h : i < j) : Before (child i) (child j)

/-- The first place is visited before the second one: it is on the way there, or leaves the way by
an earlier step. -/
abbrev Precedes : List Step → List Step → Prop := List.Lex Step.Before

namespace Expr

/-- The constraints of the decomposition that the expression comes with. -/
def members : Expr → List Expr
  | global g => g.members
  | _ => []

/-- The variables that this decomposition introduces. -/
def newVars : Expr → List Var
  | global g => g.newVars
  | _ => []

/-- The variable, or its complement, stands at the place, and no decomposition on the way there
introduces it. -/
inductive VisibleAt (v : Var) : Expr → List Step → Prop where
  | var : VisibleAt v (var v) []
  | complement : VisibleAt v (complement v) []
  | member {e d : Expr} {i : Nat} {place : List Step} (hd : e.members[i]? = some d)
    (hnew : v.toVarKey ∉ keysOf e.newVars) (h : VisibleAt v d place) :
    VisibleAt v e (.member i :: place)
  | child {e d : Expr} {i : Nat} {place : List Step} (hd : e.children[i]? = some d)
    (h : VisibleAt v d place) : VisibleAt v e (.child i :: place)

end Expr

namespace Model

/-- The variable can be seen at the place, where the constraints and then the objective are the
subexpressions of the model. -/
def VisibleAt (m : Model) (v : Var) (place : List Step) : Prop :=
  (Expr.list m.roots).VisibleAt v place

/-- The variable can be seen at the place and no sooner. -/
def FirstAt (m : Model) (v : Var) (place : List Step) : Prop :=
  m.VisibleAt v place ∧ ∀ w other, m.VisibleAt w other → w.toVarKey = v.toVarKey →
    place = other ∨ Precedes place other

end Model

namespace Expr

variable {v : Var} {e : Expr} {es : List Expr} {hidden : List VarKey} {place : List Step}

theorem visibleAt_var_iff {w : Var} : (var v).VisibleAt w place ↔ place = [] ∧ w = v := by
  constructor
  · intro h
    cases h with
    | var => exact ⟨rfl, rfl⟩
    | member hd _ _ => cases hd
    | child hd _ => cases hd
  · rintro ⟨rfl, rfl⟩
    exact .var

theorem visibleAt_complement_iff {w : Var} :
    (complement v).VisibleAt w place ↔ place = [] ∧ w = v := by
  constructor
  · intro h
    cases h with
    | complement => exact ⟨rfl, rfl⟩
    | member hd _ _ => cases hd
    | child hd _ => cases hd
  · rintro ⟨rfl, rfl⟩
    exact .complement

/-! ## What can be seen, in order -/

/-- The variables that can be seen and are not hidden, with their places in the order of these, are
the occurrences. -/
structure Sightings (e : Expr) (hidden : List VarKey) (ps : List (List Step × Var)) : Prop where
  vars : ps.map Prod.snd = e.occurrences hidden
  ordered : ps.Pairwise fun p q => Precedes p.1 q.1
  mem_iff : ∀ place v, (place, v) ∈ ps ↔ e.VisibleAt v place ∧ v.toVarKey ∉ hidden

theorem occurrencesInAll_append (hidden : List VarKey) (es ds : List Expr) :
    occurrencesInAll hidden (es ++ ds) = occurrencesInAll hidden es ++ occurrencesInAll hidden ds := by
  induction es with
  | nil => rfl
  | cons e es ih => rw [List.cons_append, occurrencesInAll, occurrencesInAll, ih, List.append_assoc]

/-- An expression that is no variable has the occurrences in its decomposition and in its
subexpressions. -/
theorem occurrences_eq (hvar : ∀ v, e ≠ var v) (hcomplement : ∀ v, e ≠ complement v) :
    e.occurrences hidden = occurrencesInAll (hidden ++ keysOf e.newVars) e.members ++
      occurrencesInAll hidden e.children := by
  have hsingle : ∀ d : Expr, occurrencesInAll hidden [d] = d.occurrences hidden := fun d =>
    List.append_nil _
  cases e with
  | var v => exact absurd rfl (hvar v)
  | complement v => exact absurd rfl (hcomplement v)
  | const c => rfl
  | list items => rfl
  | op o args => rfl
  | compare c lhs rhs =>
    show _ = occurrencesInAll hidden ([lhs] ++ [rhs])
    rw [occurrencesInAll_append, hsingle, hsingle, occurrences]
  | element array index =>
    show _ = occurrencesInAll hidden (array ++ [index])
    rw [occurrencesInAll_append, hsingle, occurrences]
  | global g =>
    cases g with
    | plain kind args => rfl
    | count args value =>
      show _ = occurrencesInAll hidden (args ++ [value])
      rw [occurrencesInAll_append, hsingle, occurrences, Global.occurrences]
    | cardinality args values counts =>
      show _ = occurrencesInAll hidden (args ++ counts)
      rw [occurrencesInAll_append, occurrences, Global.occurrences]
    | named name args => rfl
    | defined name args constraints newVars => rfl

/-- The same for several expressions that are reached by one step each. -/
structure SightingsAll (step : Nat → Step) (es : List Expr) (hidden : List VarKey)
    (ps : List (List Step × Var)) : Prop where
  vars : ps.map Prod.snd = occurrencesInAll hidden es
  ordered : ps.Pairwise fun p q => Precedes p.1 q.1
  mem_iff : ∀ place v, (place, v) ∈ ps ↔ ∃ i d rest, es[i]? = some d ∧ place = step i :: rest ∧
    d.VisibleAt v rest ∧ v.toVarKey ∉ hidden

theorem Sightings.cons {step : Nat → Step} {ps qs : List (List Step × Var)}
    (hstep : ∀ i, (step 0).Before (step (i + 1))) (h : e.Sightings hidden ps)
    (h' : SightingsAll (fun i => step (i + 1)) es hidden qs) :
    SightingsAll step (e :: es) hidden (ps.map (Prod.map (step 0 :: ·) id) ++ qs) where
  vars := by
    rw [List.map_append, List.map_map, h'.vars, occurrencesInAll, ← h.vars]
    rfl
  ordered := by
    refine List.pairwise_append.2 ⟨List.pairwise_map.2 (h.ordered.imp fun h => .cons h),
      h'.ordered, fun p hp q hq => ?_⟩
    obtain ⟨p', -, rfl⟩ := List.mem_map.1 hp
    obtain ⟨i, d, rest, -, heq, -⟩ := (h'.mem_iff q.1 q.2).1 hq
    rw [heq]
    exact .rel (hstep i)
  mem_iff place v := by
    rw [List.mem_append, h'.mem_iff]
    constructor
    · rintro (hmem | ⟨i, d, rest, hd, hplace, hseen⟩)
      · obtain ⟨⟨rest, w⟩, hseen, heq⟩ := List.mem_map.1 hmem
        cases heq
        exact ⟨0, e, rest, rfl, rfl, (h.mem_iff rest w).1 hseen⟩
      · exact ⟨i + 1, d, rest, hd, hplace, hseen⟩
    · rintro ⟨i, d, rest, hd, rfl, hseen⟩
      cases i with
      | zero =>
        cases hd
        exact .inl (List.mem_map.2 ⟨(rest, v), (h.mem_iff rest v).2 hseen, rfl⟩)
      | succ i => exact .inr ⟨i, d, rest, hd, rfl, hseen⟩

theorem exists_sightingsAll (h : ∀ e ∈ es, ∃ ps, e.Sightings hidden ps) (step : Nat → Step)
    (hstep : ∀ i j, i < j → (step i).Before (step j)) : ∃ ps, SightingsAll step es hidden ps := by
  induction es generalizing step with
  | nil => exact ⟨[], rfl, .nil, by simp⟩
  | cons e es ih =>
    rw [List.forall_mem_cons] at h
    obtain ⟨ps, hps⟩ := h.1
    obtain ⟨qs, hqs⟩ := ih h.2 (fun i => step (i + 1)) fun i j hij =>
      hstep _ _ (Nat.add_lt_add_right hij 1)
    exact ⟨_, hps.cons (fun i => hstep 0 (i + 1) (Nat.succ_pos i)) hqs⟩

theorem exists_sightings_of_single (hoccurrences : e.occurrences hidden =
      if v.toVarKey ∈ hidden then [] else [v])
    (hvisible : ∀ place w, e.VisibleAt w place ↔ place = [] ∧ w = v) :
    ∃ ps, e.Sightings hidden ps := by
  by_cases hhidden : v.toVarKey ∈ hidden
  · refine ⟨[], by rw [hoccurrences, if_pos hhidden]; rfl, .nil, fun place w => ?_⟩
    rw [hvisible]
    simp only [List.not_mem_nil, false_iff, not_and, not_not]
    rintro ⟨-, rfl⟩
    exact hhidden
  · refine ⟨[([], v)], by rw [hoccurrences, if_neg hhidden]; rfl, List.pairwise_singleton _ _,
      fun place w => ?_⟩
    rw [hvisible, List.mem_singleton, Prod.mk.injEq]
    constructor
    · rintro ⟨rfl, rfl⟩
      exact ⟨⟨rfl, rfl⟩, hhidden⟩
    · exact And.left

theorem SightingsAll.append {ps qs : List (List Step × Var)} (hvar : ∀ v, e ≠ var v)
    (hcomplement : ∀ v, e ≠ complement v)
    (h : SightingsAll .member e.members (hidden ++ keysOf e.newVars) ps)
    (h' : SightingsAll .child e.children hidden qs) : e.Sightings hidden (ps ++ qs) where
  vars := by rw [List.map_append, h.vars, h'.vars, occurrences_eq hvar hcomplement]
  ordered := by
    refine List.pairwise_append.2 ⟨h.ordered, h'.ordered, fun p hp q hq => ?_⟩
    obtain ⟨i, d, rest, -, heq, -⟩ := (h.mem_iff p.1 p.2).1 hp
    obtain ⟨j, d', rest', -, heq', -⟩ := (h'.mem_iff q.1 q.2).1 hq
    rw [heq, heq']
    exact .rel (.memberChild i j)
  mem_iff place v := by
    rw [List.mem_append, h.mem_iff, h'.mem_iff]
    constructor
    · rintro (⟨i, d, rest, hd, rfl, hseen, hkey⟩ | ⟨i, d, rest, hd, rfl, hseen, hkey⟩)
      · rw [List.mem_append, not_or] at hkey
        exact ⟨.member hd hkey.2 hseen, hkey.1⟩
      · exact ⟨.child hd hseen, hkey⟩
    · rintro ⟨hseen, hkey⟩
      cases hseen with
      | var => exact absurd rfl (hvar v)
      | complement => exact absurd rfl (hcomplement v)
      | member hd hnew hseen =>
        exact .inl ⟨_, _, _, hd, rfl, hseen, fun hmem => (List.mem_append.1 hmem).elim hkey hnew⟩
      | child hd hseen => exact .inr ⟨_, _, _, hd, rfl, hseen, hkey⟩

theorem exists_sightings (e : Expr) (hidden : List VarKey) : ∃ ps, e.Sightings hidden ps := by
  have hparts : ∀ {e : Expr} {hidden}, (∀ v, e ≠ var v) → (∀ v, e ≠ complement v) →
      (∀ d ∈ e.members, ∀ hidden, ∃ ps, d.Sightings hidden ps) →
      (∀ d ∈ e.children, ∀ hidden, ∃ ps, d.Sightings hidden ps) → ∃ ps, e.Sightings hidden ps := by
    intro e hidden hvar hcomplement hmembers hchildren
    obtain ⟨ps, hps⟩ := exists_sightingsAll (fun d hd => hmembers d hd _) .member fun _ _ => .members
    obtain ⟨qs, hqs⟩ := exists_sightingsAll (fun d hd => hchildren d hd _) .child fun _ _ => .children
    exact ⟨ps ++ qs, hps.append hvar hcomplement hqs⟩
  induction e using Expr.induction generalizing hidden with
  | const c => exact hparts nofun nofun (List.forall_mem_nil _) (List.forall_mem_nil _)
  | var v => exact exists_sightings_of_single rfl fun _ _ => visibleAt_var_iff
  | complement v => exact exists_sightings_of_single rfl fun _ _ => visibleAt_complement_iff
  | list es ih => exact hparts nofun nofun (List.forall_mem_nil _) ih
  | op o args ih => exact hparts nofun nofun (List.forall_mem_nil _) ih
  | compare c lhs rhs ihl ihr =>
    exact hparts nofun nofun (List.forall_mem_nil _)
      (List.forall_mem_cons.2 ⟨ihl, List.forall_mem_singleton.2 ihr⟩)
  | element array index iha ihi =>
    refine hparts nofun nofun (List.forall_mem_nil _) fun d hd => ?_
    rcases List.mem_append.1 hd with hd | hd
    · exact iha d hd
    · rw [List.mem_singleton.1 hd]
      exact ihi
  | global g iha ihm => exact hparts nofun nofun ihm iha

end Expr

/-! ## First places -/

/-- Of things that are seen in order, the first of each variable are seen where no other of the same
identity was seen before. -/
theorem exists_firstOfEach (ps : List (List Step × Var))
    (h : ps.Pairwise fun p q => Precedes p.1 q.1) :
    ∃ qs : List (List Step × Var), qs.Sublist ps ∧ qs.map Prod.snd = firstOfEach (ps.map Prod.snd) ∧
      ∀ q ∈ qs, ∀ p ∈ ps, p.2.toVarKey = q.2.toVarKey →
        q.1 = p.1 ∨ Precedes q.1 p.1 := by
  induction ps with
  | nil => exact ⟨[], .slnil, rfl, List.forall_mem_nil _⟩
  | cons p ps ih =>
    rw [List.pairwise_cons] at h
    obtain ⟨qs, hsub, hvars, hfirst⟩ := ih h.2
    let others := qs.filter fun q => q.2.toVarKey ≠ p.2.toVarKey
    refine ⟨p :: others, (List.filter_sublist.trans hsub).cons_cons p, ?_,
      List.forall_mem_cons.2 ⟨fun o ho _ => ?_, fun q hq o ho hkey => ?_⟩⟩
    · rw [List.map_cons, List.map_cons, firstOfEach, ← hvars, List.filter_map]
      rfl
    · rcases List.mem_cons.1 ho with rfl | ho
      · exact .inl rfl
      · exact .inr (h.1 o ho)
    · obtain ⟨hq, hne⟩ := List.mem_filter.1 hq
      rcases List.mem_cons.1 ho with rfl | ho
      · exact absurd hkey.symm (of_decide_eq_true hne)
      · exact hfirst q hq o ho hkey

namespace Model

/-- No two variables of a model have the same identity. They are those that can be seen in its
constraints and its objective, at a place that no decomposition on the way hides them from; and they
stand in the order of the first places where they can be seen. -/
theorem vars_exact (m : Model) :
    (keysOf m.vars).Nodup ∧
    (∀ k, k ∈ keysOf m.vars ↔ ∃ v place, v.toVarKey = k ∧ m.VisibleAt v place) ∧
    ∃ places, List.Forall₂ m.FirstAt m.vars places ∧ places.Pairwise Precedes := by
  obtain ⟨ps, hps⟩ := (Expr.list m.roots).exists_sightings []
  have hseen : ∀ p, p ∈ ps ↔ m.VisibleAt p.2 p.1 := fun p => by
    rw [hps.mem_iff p.1 p.2]
    exact and_iff_left List.not_mem_nil
  obtain ⟨qs, hsub, hvars, hfirst⟩ := exists_firstOfEach ps hps.ordered
  have heq : m.vars = qs.map Prod.snd := by
    rw [hvars, hps.vars]
    rfl
  refine ⟨nodup_keysOf_firstOfEach _, fun k => ?_, qs.map Prod.fst, ?_, ?_⟩
  · constructor
    · intro hk
      obtain ⟨v, hv, rfl⟩ := List.mem_map.1 hk
      rw [heq] at hv
      obtain ⟨q, hq, rfl⟩ := List.mem_map.1 hv
      exact ⟨q.2, q.1, rfl, (hseen q).1 (hsub.subset hq)⟩
    · rintro ⟨v, place, rfl, hv⟩
      refine mem_keysOf_firstOfEach ?_
      show v ∈ (Expr.list m.roots).occurrences []
      rw [← hps.vars]
      exact List.mem_map.2 ⟨(place, v), (hseen (place, v)).2 hv, rfl⟩
  · rw [heq, List.forall₂_map_left_iff, List.forall₂_map_right_iff, List.forall₂_same]
    exact fun q hq => ⟨(hseen q).1 (hsub.subset hq), fun w other hw hkey =>
      hfirst q hq (other, w) ((hseen (other, w)).2 hw) hkey⟩
  · exact List.pairwise_map.2 (hps.ordered.sublist hsub)

/-- What the inner decomposition introduces is an argument of the outer constraint as well, which is
visited after its decomposition. -/
example :
    let a : Var := ⟨⟨.declared 0, .bool⟩, "a"⟩
    let b : Var := ⟨⟨.declared 1, .bool⟩, "b"⟩
    let c : Var := ⟨⟨.declared 2, .bool⟩, "c"⟩
    let inner : Expr := .global (.defined "inner" [.var b] [.op .or [.var c, .complement a]] [c])
    let m : Model := { constraints := [.global (.defined "outer" [.var c] [inner] [b])] }
    m.vars = [a, c] := by
  decide

end Model

end Linearization
