import Linearization.Proofs.Expr.Circuit
import Linearization.Proofs.Expr.Parts
import Mathlib.Algebra.Ring.Int.Defs
import Mathlib.Data.List.Forall2

/-!
# What expressions can come to

Whenever a cycle constraint is expanded, its nodes get an order of their own, and nothing else fixes
that order. A translated expression therefore has no single value but several outcomes, one for each
choice of the orders (`Expr.Yields`), and a constraint is met if the orders can be chosen so that it
is (`Expr.Meets`). All other variables have one value throughout, those that decompositions come with
included.

An expression that occurs several times, or is copied by a decomposition, may come to something else
at every place.
-/

namespace Linearization

open Linearization.Valuation

/-- The nodes of a cycle through so many nodes. -/
def IsVisit (size : Nat) (order : Nat → Int) : Prop :=
  ∀ step < size, 0 ≤ order step ∧ order step < size

namespace Expr

/-- What an expression can come to: an integer, or a list, of whose items only the integers have a
value. -/
inductive Outcome where
  | number (k : Int)
  | sequence (ks : List (Option Int))

namespace Outcome

def value? : Outcome → Option Int
  | number k => some k
  | sequence _ => none

/-- The values of the items; a number is its own only item. -/
def items : Outcome → List (Option Int)
  | number k => [some k]
  | sequence ks => ks

theorem value?_eq_some {o : Outcome} {k : Int} : o.value? = some k ↔ o = number k := by
  cases o <;> simp [value?]

theorem integers_inj {vs ws : List Int} (h : sequence (vs.map some) = sequence (ws.map some)) :
    vs = ws :=
  List.map_injective_iff.2 (Option.some_injective Int) (sequence.inj h)

end Outcome

/-- For some choice of the orders of cycles the expression comes to this. -/
inductive Yields (σ : Valuation) : Expr → Outcome → Prop where
  | const (c : Int) : Yields σ (const c) (.number c)
  | var (v : Var) : Yields σ (var v) (.number (σ v.toVarKey))
  | complement (v : Var) : Yields σ (complement v) (.number (1 - σ v.toVarKey))
  | nil : Yields σ (list []) (.sequence [])
  | cons {e : Expr} {es : List Expr} {o : Outcome} {ks : List (Option Int)} (he : Yields σ e o)
    (hes : Yields σ (list es) (.sequence ks)) :
    Yields σ (list (e :: es)) (.sequence (o.value? :: ks))
  | op {o : Operator} {args : List Expr} {vs : List Int} {k : Int}
    (hargs : Yields σ (list args) (.sequence (vs.map some))) (ho : o.apply vs = some k) :
    Yields σ (op o args) (.number k)
  | compare {c : Comparison} {lhs rhs : Expr} {a b : Int} (hl : Yields σ lhs (.number a))
    (hr : Yields σ rhs (.number b)) :
    Yields σ (compare c lhs rhs) (.number (ofTruth (c.Holds a b)))
  | element {array : List Expr} {index : Expr} {vs : List Int} {i k : Int}
    (hi : Yields σ index (.number i)) (ha : Yields σ (list array) (.sequence (vs.map some)))
    (hk : itemAt? vs i = some k) : Yields σ (element array index) (.number k)
  | extremum {kind : GlobalKind} {args : List Expr} {vs : List Int} {k : Int}
    (hkind : kind = .min ∨ kind = .max) (hargs : Yields σ (list args) (.sequence (vs.map some)))
    (hk : kind.apply (vs.map some) = some k) : Yields σ (global (.plain kind args)) (.number k)
  | count {args : List Expr} {value : Expr} {hits : List Int}
    (h : Yields σ (list (args.map fun a => a.equals value)) (.sequence (hits.map some))) :
    Yields σ (global (.count args value)) (.number hits.sum)
  | decomposed {g : Global} {m : Nat} {d : Decomposition} {o : Outcome}
    (hcircuit : ∀ args, g ≠ .plain .circuit args) (hd : g.decompose m = some d)
    (h : Yields σ (all d.constraints) o) : Yields σ (global g) o
  | circuit {args : List Expr} {order : Nat → Int} {o : Outcome} (horder : IsVisit args.length order)
    (h : Yields σ (all (tour (fun step => const (order step)) args)) o) :
    Yields σ (global (.plain .circuit args)) o

/-- Every expression comes to the integer at its place. -/
abbrev YieldsAll (σ : Valuation) (es : List Expr) (vs : List Int) : Prop :=
  (list es).Yields σ (.sequence (vs.map some))

/-- The expression is imposed by its literal, or by rows that come down to it. -/
def IsDirect : Expr → Prop
  | const _ | var _ | complement _ | element _ _ => True
  | op .and _ | op .implies [_, _] => False
  | op _ _ => True
  | _ => False

/-- For some choice of the orders of cycles the expression is met as a constraint. -/
inductive Meets (σ : Valuation) : Expr → Prop where
  | direct {e : Expr} {k : Int} (he : e.IsDirect) (hk : e.Yields σ (.number k)) (hne : k ≠ 0) :
    Meets σ e
  | list {es : List Expr} (h : ∀ e ∈ es, Meets σ e) : Meets σ (list es)
  | and {args : List Expr} (h : ∀ e ∈ args, Meets σ e) : Meets σ (op .and args)
  | implies {a b : Expr} {k : Int} (ha : a.Yields σ (.number k)) (hb : k ≠ 0 → Meets σ b) :
    Meets σ (op .implies [a, b])
  | compare {c : Comparison} {lhs rhs : Expr} {l r : Outcome} (hl : lhs.Yields σ l)
    (hr : rhs.Yields σ r) (h : c.holdsItemwise l.items r.items = true) :
    Meets σ (compare c lhs rhs)
  | distinct {args : List Expr} {vs : List Int} (hargs : YieldsAll σ args vs) (h : vs.Nodup) :
    Meets σ (global (.plain .allDifferent args))
  | single {args : List Expr} (h : args.length ≤ 1) : Meets σ (global (.plain .allDifferent args))
  | function {g : Global} (hg : g.isBoolean = false) : Meets σ (global g)
  | decomposed {g : Global} {m : Nat} {d : Decomposition}
    (hcircuit : ∀ args, g ≠ .plain .circuit args)
    (hdistinct : ∀ args, g ≠ .plain .allDifferent args) (hd : g.decompose m = some d)
    (h : ∀ c ∈ d.constraints, Meets σ c) : Meets σ (global g)
  | circuit {args : List Expr} {order : Nat → Int} (horder : IsVisit args.length order)
    (h : ∀ c ∈ tour (fun step => const (order step)) args, Meets σ c) :
    Meets σ (global (.plain .circuit args))

variable {σ τ : Valuation} {e d a b : Expr} {es ds args : List Expr} {o : Outcome} {vs : List Int}
  {k : Int} {P : Var → Prop} {g : Global} {c : Comparison}

/-! ## Lists of integers -/

theorem yieldsAll_nil : YieldsAll σ [] vs ↔ vs = [] := by
  constructor
  · intro h
    unfold YieldsAll at h
    generalize hks : vs.map some = ks at h
    cases h
    exact List.map_eq_nil_iff.1 hks
  · rintro rfl
    exact .nil

theorem yieldsAll_cons : YieldsAll σ (e :: es) vs ↔
    ∃ k ks, e.Yields σ (.number k) ∧ YieldsAll σ es ks ∧ vs = k :: ks := by
  constructor
  · intro h
    unfold YieldsAll at h
    generalize hks : vs.map some = ks at h
    cases h with
    | cons he hes =>
      obtain ⟨k, ks, rfl, hk, rfl⟩ := List.map_eq_cons_iff.1 hks
      rw [Outcome.value?_eq_some.1 hk.symm] at he
      exact ⟨k, ks, he, hes, rfl⟩
  · rintro ⟨k, ks, he, hes, rfl⟩
    exact .cons he hes

theorem length_of_yieldsAll (h : YieldsAll σ es vs) : vs.length = es.length := by
  induction es generalizing vs with
  | nil =>
    rw [yieldsAll_nil.1 h]
    rfl
  | cons e es ih =>
    obtain ⟨k, ks, -, hes, rfl⟩ := yieldsAll_cons.1 h
    rw [List.length_cons, List.length_cons, ih hes]

theorem exists_yields_of_mem (h : YieldsAll σ es vs) (he : e ∈ es) :
    ∃ k ∈ vs, e.Yields σ (.number k) := by
  induction es generalizing vs with
  | nil => cases he
  | cons d es ih =>
    obtain ⟨k, ks, hd, hes, rfl⟩ := yieldsAll_cons.1 h
    rcases List.mem_cons.1 he with rfl | he
    · exact ⟨k, List.mem_cons_self, hd⟩
    · obtain ⟨m, hm, hyields⟩ := ih hes he
      exact ⟨m, List.mem_cons_of_mem _ hm, hyields⟩

theorem exists_mem_of_yieldsAll (h : YieldsAll σ es vs) (hk : k ∈ vs) :
    ∃ e ∈ es, e.Yields σ (.number k) := by
  induction es generalizing vs with
  | nil =>
    rw [yieldsAll_nil.1 h] at hk
    cases hk
  | cons d es ih =>
    obtain ⟨m, ks, hd, hes, rfl⟩ := yieldsAll_cons.1 h
    rcases List.mem_cons.1 hk with rfl | hk
    · exact ⟨d, List.mem_cons_self, hd⟩
    · obtain ⟨e, he, hyields⟩ := ih hes hk
      exact ⟨e, List.mem_cons_of_mem _ he, hyields⟩

/-! ## The variables that matter -/

theorem allVars_tour {node : Nat → Expr} (hargs : ∀ e ∈ args, e.AllVars P)
    (hnode : ∀ step, (node step).AllVars P) : ∀ c ∈ tour node args, c.AllVars P :=
  of_tour .const (fun _ _ _ => .compare) (fun _ _ _ => .element)
    (fun _ hes => .global hes (List.forall_mem_nil _) (List.forall_mem_nil _)) hargs
    fun step _ => hnode step

/-- The members of a decomposition other than that of a cycle have the variables of the global. -/
theorem AllVars.members (hg : (Expr.global g).AllVars P) (hcircuit : ∀ args, g ≠ .plain .circuit args)
    {m : Nat} {d : Decomposition} (hd : g.decompose m = some d) :
    ∀ c ∈ d.constraints, c.AllVars P := by
  refine hg.decompose hd (fun _ hv => hv) ?_
  rw [newVars_eq_of_decompose hcircuit hd]
  cases hg with
  | global _ _ hnew => exact hnew

/-- What an expression can come to depends only on the values of its variables. -/
theorem Yields.congr (h : e.Yields σ o) (he : e.AllVars P)
    (hστ : ∀ v, P v → σ v.toVarKey = τ v.toVarKey) : e.Yields τ o := by
  induction h with
  | const c => exact .const c
  | var v =>
    cases he with
    | var hv => rw [hστ v hv]; exact .var v
  | complement v =>
    cases he with
    | complement hv => rw [hστ v hv]; exact .complement v
  | nil => exact .nil
  | cons _ _ ihe ihes =>
    cases he with
    | list he =>
      obtain ⟨he, hes⟩ := List.forall_mem_cons.1 he
      exact .cons (ihe he) (ihes (.list hes))
  | op _ ho ih =>
    cases he with
    | op hargs => exact .op (ih (.list hargs)) ho
  | compare _ _ ihl ihr =>
    cases he with
    | compare hl hr => exact .compare (ihl hl) (ihr hr)
  | element _ _ hk ihi iha =>
    cases he with
    | element ha hi => exact .element (ihi hi) (iha (.list ha)) hk
  | extremum hkind _ hk ih =>
    cases he with
    | global hargs _ _ => exact .extremum hkind (ih (.list hargs)) hk
  | count _ ih =>
    cases he with
    | global hargs _ _ =>
      -- a count is the sum of its equalities, which have the variables of both sides
      refine .count (ih (.list ?_))
      obtain ⟨hargs, hvalue⟩ := List.forall_mem_append.1 hargs
      rintro c hc
      obtain ⟨a, ha, rfl⟩ := List.mem_map.1 hc
      exact .compare (hargs a ha) (hvalue _ (List.mem_singleton_self _))
  | decomposed hcircuit hd _ ih =>
    exact .decomposed hcircuit hd (ih (allVars_all (he.members hcircuit hd)))
  | circuit horder _ ih =>
    cases he with
    | global hargs _ _ =>
      exact .circuit horder (ih (allVars_all (allVars_tour hargs fun step => .const _)))

/-! ## Cycles

The members for a cycle come to the same whether its nodes stand there as integers or as variables
with these values. -/

/-- Whatever the first expression can come to, the second can. -/
def Follows (σ τ : Valuation) (e d : Expr) : Prop := ∀ o, e.Yields σ o → d.Yields τ o

theorem Follows.list (h : List.Forall₂ (Follows σ τ) es ds) :
    Follows σ τ (Expr.list es) (Expr.list ds) := by
  induction h with
  | nil =>
    intro o ho
    cases ho
    exact .nil
  | cons hhead _ ih =>
    intro o ho
    cases ho with
    | cons he hes => exact .cons (hhead _ he) (ih _ hes)

theorem Follows.op {o : Operator} (h : List.Forall₂ (Follows σ τ) es ds) :
    Follows σ τ (Expr.op o es) (Expr.op o ds) := by
  intro o' ho
  cases ho with
  | op hargs happly => exact .op (Follows.list h _ hargs) happly

theorem Follows.compare {a' b' : Expr} (ha : Follows σ τ a a') (hb : Follows σ τ b b') :
    Follows σ τ (Expr.compare c a b) (Expr.compare c a' b') := by
  intro o ho
  cases ho with
  | compare hl hr => exact .compare (ha _ hl) (hb _ hr)

theorem Follows.element (hes : List.Forall₂ (Follows σ τ) es ds) (ha : Follows σ τ a b) :
    Follows σ τ (Expr.element es a) (Expr.element ds b) := by
  intro o ho
  cases ho with
  | element hi hitems hk => exact .element (ha _ hi) (Follows.list hes _ hitems) hk

theorem forall₂_pairwise {R S : Expr → Expr → Prop} {f : Expr → Expr → Expr}
    (h : List.Forall₂ R es ds) (hf : ∀ {a b a' b'}, R a a' → R b b' → S (f a b) (f a' b')) :
    List.Forall₂ S (pairwise f es) (pairwise f ds) := by
  induction h with
  | nil => exact .nil
  | cons hhead htail ih =>
    refine List.rel_append ?_ ih
    rw [List.forall₂_map_left_iff, List.forall₂_map_right_iff]
    exact htail.imp fun _ _ hb => hf hhead hb

/-- Nothing is taken apart in a conjunction of expressions that are no conjunctions. -/
theorem all_of_operands (h : ∀ e ∈ es, e.operands .and = [e]) : Expr.all es = Expr.op .and es := by
  refine congrArg (Expr.op .and) ?_
  induction es with
  | nil => rfl
  | cons e es ih =>
    obtain ⟨he, hes⟩ := List.forall_mem_cons.1 h
    rw [List.flatMap_cons, he, ih hes]
    rfl

theorem Follows.distinct (h : List.Forall₂ (Follows σ τ) es ds) :
    Follows σ τ (Expr.global (.plain .allDifferent es)) (Expr.global (.plain .allDifferent ds)) := by
  intro o ho
  cases ho with
  | extremum hkind _ _ => cases hkind <;> contradiction
  | decomposed hcircuit hd hmembers =>
    cases hd
    have hoperands : ∀ {es : List Expr}, ∀ c ∈ pairwise Expr.differs es,
        c.operands .and = [c] := fun c hc => by
      obtain ⟨a, -, b, -, rfl⟩ := mem_pairwise hc
      rfl
    have hall := Follows.op (o := .and) (forall₂_pairwise (f := Expr.differs) h
      fun ha hb => Follows.compare ha hb)
    refine .decomposed nofun (m := 0) rfl ?_
    rw [all_of_operands hoperands] at hmembers ⊢
    exact hall _ hmembers

theorem meets_compare (hm : (Expr.compare c a b).Meets σ) {a' b' : Expr} (ha : Follows σ τ a a')
    (hb : Follows σ τ b b') : (Expr.compare c a' b').Meets τ := by
  cases hm with
  | direct hdirect _ _ => cases hdirect
  | compare hl hr hholds => exact .compare (ha _ hl) (hb _ hr) hholds

theorem meets_distinct (hm : (Expr.global (.plain .allDifferent es)).Meets σ)
    (h : List.Forall₂ (Follows σ τ) es ds) : (Expr.global (.plain .allDifferent ds)).Meets τ := by
  cases hm with
  | direct hdirect _ _ => cases hdirect
  | distinct hargs hnodup => exact .distinct (Follows.list h _ hargs) hnodup
  | single hlength => exact .single (h.length_eq ▸ hlength)
  | function hfunction => cases hfunction
  | decomposed _ hdistinct _ _ => exact absurd rfl (hdistinct _)

/-- The member of one tour can stand for the member of another. -/
structure Replaces (σ τ : Valuation) (e d : Expr) : Prop where
  follows : Follows σ τ e d
  meets : e.Meets σ → d.Meets τ

theorem Replaces.compare {a' b' : Expr} (ha : Follows σ τ a a') (hb : Follows σ τ b b') :
    Replaces σ τ (Expr.compare c a b) (Expr.compare c a' b') :=
  ⟨Follows.compare ha hb, fun hm => meets_compare hm ha hb⟩

theorem Replaces.distinct (h : List.Forall₂ (Follows σ τ) es ds) :
    Replaces σ τ (Expr.global (.plain .allDifferent es)) (Expr.global (.plain .allDifferent ds)) :=
  ⟨Follows.distinct h, fun hm => meets_distinct hm h⟩

/-- The members of a tour for one reading of the nodes, against those for another. -/
theorem forall₂_tour {node node' : Nat → Expr} (hargs : ∀ e ∈ args, Follows σ τ e e)
    (hnode : ∀ step < args.length, Follows σ τ (node step) (node' step)) :
    List.Forall₂ (Replaces σ τ) (tour node args) (tour node' args) := by
  cases args with
  | nil => exact .nil
  | cons first rest =>
    have hsame : List.Forall₂ (Follows σ τ) (first :: rest) (first :: rest) :=
      List.forall₂_same.2 hargs
    have hnodes : List.Forall₂ (Follows σ τ) ((List.range (first :: rest).length).map node)
        ((List.range (first :: rest).length).map node') := by
      rw [List.forall₂_map_left_iff, List.forall₂_map_right_iff, List.forall₂_same]
      exact fun step hstep => hnode step (List.mem_range.1 hstep)
    have hlast : (first :: rest).length - 1 < (first :: rest).length := by simp
    refine .cons (.distinct hsame) (.cons (.distinct hnodes) (.cons ?_ (.cons ?_ ?_)))
    · exact .compare (hnode _ hlast) fun _ ho => by
        cases ho
        exact .const 0
    · exact .compare (hnode 0 (by simp)) (hargs first List.mem_cons_self)
    · rw [List.append_eq, List.nil_append, List.append_eq, List.nil_append,
        List.forall₂_map_left_iff, List.forall₂_map_right_iff, List.forall₂_same]
      intro step hstep
      have hstep' : step < (first :: rest).length - 1 := List.mem_range.1 hstep
      exact .compare (hnode _ (by omega)) (Follows.element hsame (hnode _ (by omega)))

theorem all_tour (node : Nat → Expr) (args : List Expr) :
    all (tour node args) = Expr.op .and (tour node args) := by
  refine all_of_operands fun c hc => ?_
  cases args with
  | nil => cases hc
  | cons first rest =>
    simp only [tour, List.cons_append, List.nil_append, List.mem_cons, List.mem_map] at hc
    rcases hc with rfl | rfl | rfl | rfl | ⟨step, -, rfl⟩ <;> rfl

/-- What the conjunction for one reading of the nodes can come to, that for the other can. -/
theorem follows_tour {node node' : Nat → Expr} (hargs : ∀ e ∈ args, Follows σ τ e e)
    (hnode : ∀ step < args.length, Follows σ τ (node step) (node' step)) :
    Follows σ τ (all (tour node args)) (all (tour node' args)) := by
  rw [all_tour, all_tour]
  exact .op ((forall₂_tour hargs hnode).imp fun _ _ h => h.follows)

theorem meets_tour {node node' : Nat → Expr} (hargs : ∀ e ∈ args, Follows σ τ e e)
    (hnode : ∀ step < args.length, Follows σ τ (node step) (node' step))
    (h : ∀ c ∈ tour node args, c.Meets σ) : ∀ c ∈ tour node' args, c.Meets τ := by
  intro c hc
  have hmembers := forall₂_tour hargs hnode
  obtain ⟨i, hi, rfl⟩ := List.mem_iff_getElem.1 hc
  have hi' : i < (tour node args).length := by rwa [hmembers.length_eq]
  exact (hmembers.get hi' hi).meets (h _ (List.getElem_mem hi'))

/-! ## Decompositions -/

theorem decompose_eq_of_ne_circuit (hcircuit : ∀ args, g ≠ .plain .circuit args) (m n : Nat) :
    g.decompose m = g.decompose n := by
  cases g with
  | plain kind args =>
    cases kind with
    | circuit => exact absurd rfl (hcircuit args)
    | _ => rfl
  | _ => rfl

variable {n : Nat} {D : Decomposition}

/-- Any other global than a cycle comes to what the conjunction of its members comes to. -/
theorem yields_decomposed_iff (hcircuit : ∀ args, g ≠ .plain .circuit args)
    (hd : g.decompose n = some D) : (global g).Yields σ o ↔ (all D.constraints).Yields σ o := by
  refine ⟨fun h => ?_, .decomposed hcircuit hd⟩
  cases h with
  | extremum hkind _ _ => rcases hkind with rfl | rfl <;> cases hd
  | count _ => cases hd
  | decomposed _ hd' h =>
    rw [decompose_eq_of_ne_circuit hcircuit _ n, hd] at hd'
    cases hd'
    exact h
  | circuit _ _ => exact absurd rfl (hcircuit _)

theorem meets_decomposed_iff (hcircuit : ∀ args, g ≠ .plain .circuit args)
    (hdistinct : ∀ args, g ≠ .plain .allDifferent args) (hd : g.decompose n = some D) :
    (global g).Meets σ ↔ ∀ c ∈ D.constraints, c.Meets σ := by
  refine ⟨fun h => ?_, .decomposed hcircuit hdistinct hd⟩
  cases h with
  | direct hdirect _ _ => cases hdirect
  | distinct _ _ => exact absurd rfl (hdistinct _)
  | single _ => exact absurd rfl (hdistinct _)
  | function hfunction =>
    cases g with
    | plain kind args =>
      cases kind with
      | min => cases hd
      | max => cases hd
      | _ => cases hfunction
    | count args value => cases hd
    | _ => cases hfunction
  | decomposed _ _ hd' h =>
    rw [decompose_eq_of_ne_circuit hcircuit _ n, hd] at hd'
    cases hd'
    exact h
  | circuit _ _ => exact absurd rfl (hcircuit _)

/-- A cycle comes to what its members come to for some order. -/
theorem yields_order_iff : (global (.plain .circuit args)).Yields σ o ↔
    ∃ order, IsVisit args.length order ∧
      (all (tour (fun step => const (order step)) args)).Yields σ o := by
  constructor
  · intro h
    cases h with
    | extremum hkind _ _ => cases hkind <;> contradiction
    | decomposed hcircuit _ _ => exact absurd rfl (hcircuit _)
    | circuit horder h => exact ⟨_, horder, h⟩
  · rintro ⟨order, horder, h⟩
    exact .circuit horder h

theorem meets_order_iff : (global (.plain .circuit args)).Meets σ ↔
    ∃ order, IsVisit args.length order ∧
      ∀ c ∈ tour (fun step => const (order step)) args, c.Meets σ := by
  constructor
  · intro h
    cases h with
    | direct hdirect _ _ => cases hdirect
    | function hfunction => cases hfunction
    | decomposed hcircuit _ _ _ => exact absurd rfl (hcircuit _)
    | circuit horder h => exact ⟨_, horder, h⟩
  · rintro ⟨order, horder, h⟩
    exact .circuit horder h

section

variable (hargs : ∀ e ∈ args, e.AllVars P)
  (hfresh : ∀ v, P v → v.toVarKey ∉ keysOf ((List.range args.length).map (orderVar n args.length)))

include hargs hfresh

/-- With the order in its variables the members come to the same as with the order in their place.
-/
theorem follows_withOrder (σ : Valuation) (order : Nat → Int) :
    (∀ e ∈ args, Follows (withOrder σ n args.length order) σ e e ∧
      Follows σ (withOrder σ n args.length order) e e) ∧
    ∀ step < args.length,
      Follows (withOrder σ n args.length order) σ (var (orderVar n args.length step))
        (const (order step)) ∧
      Follows σ (withOrder σ n args.length order) (const (order step))
        (var (orderVar n args.length step)) := by
  have hsame : ∀ v, P v → withOrder σ n args.length order v.toVarKey = σ v.toVarKey :=
    fun v hv => if_neg (hfresh v hv)
  refine ⟨fun e he => ⟨fun o ho => ?_, fun o ho => ?_⟩, fun step hstep => ?_⟩
  · exact ho.congr (hargs e he) hsame
  · exact ho.congr (hargs e he) fun v hv => (hsame v hv).symm
  · have hvalue : withOrder σ n args.length order (orderVar n args.length step).toVarKey =
        order step := orderOf_withOrder hstep
    constructor
    · intro o ho
      cases ho
      rw [hvalue]
      exact .const _
    · intro o ho
      cases ho
      rw [← hvalue]
      exact .var _

/-- A cycle comes to what its members come to over the values of their order. -/
theorem yields_circuit_iff : (global (.plain .circuit args)).Yields σ o ↔
    ∃ order, IsVisit args.length order ∧
      (all (circuitDecomposition n args).constraints).Yields
        (withOrder σ n args.length order) o := by
  rw [circuitDecomposition_eq_tour, yields_order_iff]
  refine exists_congr fun order => and_congr_right fun _ => ?_
  obtain ⟨hsame, hnode⟩ := follows_withOrder hargs hfresh σ order
  constructor
  · exact follows_tour (fun e he => (hsame e he).2) (fun step hstep => (hnode step hstep).2) o
  · exact follows_tour (fun e he => (hsame e he).1) (fun step hstep => (hnode step hstep).1) o

theorem meets_circuit_iff : (global (.plain .circuit args)).Meets σ ↔
    ∃ order, IsVisit args.length order ∧ ∀ c ∈ (circuitDecomposition n args).constraints,
      c.Meets (withOrder σ n args.length order) := by
  rw [circuitDecomposition_eq_tour, meets_order_iff]
  refine exists_congr fun order => and_congr_right fun _ => ?_
  obtain ⟨hsame, hnode⟩ := follows_withOrder hargs hfresh σ order
  constructor
  · exact meets_tour (fun e he => (hsame e he).2) fun step hstep => (hnode step hstep).2
  · exact meets_tour (fun e he => (hsame e he).1) fun step hstep => (hnode step hstep).1

end

theorem yields_all (h : (all es).Yields σ o) : ∃ b, o = .number (ofTruth b) := by
  cases h with
  | op _ happly =>
    cases happly
    exact ⟨_, rfl⟩

end Expr

end Linearization
