import Linearization.Proofs.Ilp.Coerce
import Linearization.Proofs.Translation.Steps

/-!
# What lowered values denote

`e.Denotes σ x n` says that under the values `σ` of the variables and the values `x` of the columns,
the lowered value `n` is the value of the expression `e`; a list denotes item by item. `t.Defines t'
P` is `Ilp.Defines` for drafts: the layout is the same, no solution is lost, and `P` holds in every
solution and for the values that the variables have in it.
-/

namespace Linearization

/-- The lowered value is the value of the expression, item by item for a list. -/
inductive Expr.Denotes (σ : Valuation) (x : Assignment) : Expr → Lowered → Prop where
  | value {e : Expr} {n : Lowered} {k : Int} (he : e.value? σ = some k) (hn : n.value? x = some k) :
    Denotes σ x e n
  | list {es : List Expr} {ns : List Lowered} (h : List.Forall₂ (Denotes σ x) es ns) :
    Denotes σ x (.list es) (.sequence ns)

namespace Expr

variable {σ : Valuation} {x : Assignment} {e : Expr} {n : Lowered}

/-- The expression and the lowered value have the same value; a list has none on either side. -/
theorem Denotes.value?_eq (h : e.Denotes σ x n) : e.value? σ = n.value? x := by
  cases h with
  | value he hn => rw [he, hn]
  | list _ => rfl

theorem Denotes.itemValues (h : e.Denotes σ x n) :
    e.itemValues σ = n.items.map (Lowered.value? x) := by
  unfold Expr.itemValues
  rw [valuesOf_eq_map]
  cases h with
  | value he hn =>
    have hitems : e.items = [e] := by
      cases e with
      | list es => cases he
      | _ => rfl
    have hitems' : n.items = [n] := by
      cases n with
      | sequence ns => cases hn
      | _ => rfl
    rw [hitems, hitems', List.map_singleton, List.map_singleton, he, hn]
  | @list es ns h =>
    show es.map (Expr.value? σ) = ns.map (Lowered.value? x)
    induction h with
    | nil => rfl
    | cons hhead _ ih => rw [List.map_cons, List.map_cons, hhead.value?_eq, ih]

end Expr

namespace Draft

variable {t t' t'' : Draft} {P Q : Valuation → Assignment → Prop} {q : Ilp}

/-- The step has left the layout alone and lost no solution, and the property holds in every
solution. -/
structure Defines (t t' : Draft) (P : Valuation → Assignment → Prop) : Prop where
  layout : t'.layout = t.layout
  defines : t.program.Defines t'.program fun x => P (t.layout.valuation x) x

namespace Defines

theorem refl (h : t.program.WellFormed)
    (hP : ∀ x, t.program.Solves x → P (t.layout.valuation x) x) : t.Defines t P :=
  ⟨rfl, .refl h hP⟩

theorem of_program {R : Assignment → Prop} (h : t.program.Defines q R) :
    t.Defines { t with program := q } fun _ x => R x := ⟨rfl, h⟩

theorem weaken (h : t.Defines t' P)
    (hPQ : ∀ x, t'.program.Solves x → P (t.layout.valuation x) x → Q (t.layout.valuation x) x) :
    t.Defines t' Q := ⟨h.layout, Ilp.Extends.weaken h.defines hPQ⟩

theorem trans (h : t.Defines t' P) (h' : t'.Defines t'' Q) :
    t.Defines t'' fun σ x => P σ x ∧ Q σ x := by
  refine ⟨h'.layout.trans h.layout, ?_⟩
  have hnext := h'.defines
  rw [h.layout] at hnext
  exact Ilp.Defines.trans h.defines hnext

theorem sound (h : t.Defines t' P) {x : Assignment} (hx : t'.program.Solves x) :
    P (t.layout.valuation x) x := h.defines.sound x hx

theorem size_le (h : t.Defines t' P) : t.program.columns.size ≤ t'.program.columns.size :=
  h.defines.grows.size_le

theorem wellFormed (h : t.Defines t' P) (hwf : t.WellFormed) : t'.WellFormed :=
  hwf.of_program h.defines.grows h.defines.wellFormed h.layout

theorem covers {e : Expr} (h : t.Defines t' P) (he : t.layout.Covers e) : t'.layout.Covers e := by
  rwa [h.layout]

end Defines

end Draft

namespace Translate

variable {α : Type} {t t' : Draft} {e : Expr} {es : List Expr} {n : Lowered} {form : Affine}
  {forms : List Affine} {l : Literal} {ls : List Literal} {limit : Nat} {deeper : Option Deeper}

/-- Extending the program defines what the lowering does. -/
theorem defines_of_build {action : Lowering α} {a : α} (h : build e action t = .ok a t')
    {R : Assignment → Prop} (hR : ∀ q, action t.program = .ok a q → t.program.Defines q R) :
    t.Defines t' fun _ x => R x := by
  obtain ⟨q, hq, rfl⟩ := build_eq_ok.1 h
  exact .of_program (hR q hq)

/-! ## Forms and literals -/

/-- Lowering the expression is exact: the lowered value denotes it, and no solution is lost. -/
def ExactFor (f : Expr → Translate Lowered) (e : Expr) : Prop :=
  ∀ ⦃t t' : Draft⦄ ⦃n : Lowered⦄, t.WellFormed → t.layout.Covers e → f e t = .ok n t' →
    n.Over t'.program ∧ t.Defines t' fun σ x => e.Denotes σ x n

theorem defines_of_affineOf (hp : t.program.WellFormed) (hn : n.Over t.program)
    (h : build e (Lowering.affineOf n) t = .ok form t') :
    form.Below t'.program.columns.size ∧
      t.Defines t' fun _ x => n.value? x = some (form.eval x) := by
  refine ⟨?_, defines_of_build h fun q hq => Lowering.defines_of_affineOf hp hq⟩
  obtain ⟨q, hq, rfl⟩ := build_eq_ok.1 h
  exact Lowering.below_of_affineOf hp hn hq

theorem defines_of_literalOf (hp : t.program.WellFormed) (hn : n.Over t.program)
    (h : build e (Lowering.literalOf n) t = .ok l t') :
    t'.program.IsTruth l ∧
      t.Defines t' fun _ x => ∃ k, n.value? x = some k ∧ (l.Holds x ↔ k ≠ 0) := by
  obtain ⟨q, hq, rfl⟩ := build_eq_ok.1 h
  have hreifies := Lowering.reifies_of_literalOf hp hn hq
  refine ⟨hreifies.truth, .of_program (hreifies.defines.weaken fun x _ hl => ?_)⟩
  obtain ⟨k, hk⟩ := Option.isSome_iff_exists.1 (Lowering.value?_isSome_of_literalOf hq x)
  refine ⟨k, hk, hl.trans ⟨?_, fun hne => ⟨k, hk, hne⟩⟩⟩
  rintro ⟨m, hm, hne⟩
  rw [hk] at hm
  cases hm
  exact hne

theorem defines_affine (hexact : ExactFor (lower limit deeper) e) (hwf : t.WellFormed)
    (he : t.layout.Covers e) (h : affine limit deeper e t = .ok form t') :
    form.Below t'.program.columns.size ∧
      t.Defines t' fun σ x => e.value? σ = some (form.eval x) := by
  obtain ⟨n, t₁, h₁, h₂⟩ := bind_eq_ok.1 h
  obtain ⟨hover, hd₁⟩ := hexact hwf he h₁
  obtain ⟨hbelow, hd₂⟩ := defines_of_affineOf (hd₁.wellFormed hwf).program hover h₂
  exact ⟨hbelow, (hd₁.trans hd₂).weaken fun x _ hx => hx.1.value?_eq.trans hx.2⟩

/-- The literal is true exactly if the expression, which has a value, is. -/
def IsTruthOf (σ : Valuation) (x : Assignment) (e : Expr) (l : Literal) : Prop :=
  (e.value? σ).isSome ∧ decide (l.Holds x) = e.isTrue σ

theorem defines_literal (hexact : ExactFor (lower limit deeper) e) (hwf : t.WellFormed)
    (he : t.layout.Covers e) (h : literal limit deeper e t = .ok l t') :
    t'.program.IsTruth l ∧ t.Defines t' fun σ x => IsTruthOf σ x e l := by
  obtain ⟨n, t₁, h₁, h₂⟩ := bind_eq_ok.1 h
  obtain ⟨hover, hd₁⟩ := hexact hwf he h₁
  obtain ⟨htruth, hd₂⟩ := defines_of_literalOf (hd₁.wellFormed hwf).program hover h₂
  refine ⟨htruth, (hd₁.trans hd₂).weaken fun x _ hx => ?_⟩
  obtain ⟨hdenotes, k, hk, hl⟩ := hx
  have hvalue := hdenotes.value?_eq.trans hk
  refine ⟨by rw [hvalue]; rfl, ?_⟩
  rw [Expr.isTrue, hvalue]
  exact decide_eq_decide.2 hl

/-! ## Several expressions -/

/-- A step for every expression, each of which says something about its result. -/
theorem defines_mapM {f : Expr → Translate α} {as : List α} (Over : α → Ilp → Prop)
    {R : Valuation → Assignment → Expr → α → Prop}
    (hmono : ∀ {a p q}, Over a p → p.Grows q → Over a q)
    (hf : ∀ e ∈ es, ∀ ⦃t t' a⦄, t.WellFormed → t.layout.Covers e → f e t = .ok a t' →
      Over a t'.program ∧ t.Defines t' fun σ x => R σ x e a)
    (hwf : t.WellFormed) (hes : ∀ e ∈ es, t.layout.Covers e) (h : es.mapM f t = .ok as t') :
    (∀ a ∈ as, Over a t'.program) ∧ t.Defines t' fun σ x => List.Forall₂ (R σ x) es as := by
  induction es generalizing t as with
  | nil =>
    obtain ⟨rfl, rfl⟩ := pure_eq_ok.1 h
    exact ⟨List.forall_mem_nil _, .refl hwf.program fun x _ => .nil⟩
  | cons e es ih =>
    rw [List.forall_mem_cons] at hf hes
    obtain ⟨a, t₁, rest, h₁, h₂, rfl⟩ := mapM_cons_eq_ok h
    obtain ⟨hover, hd₁⟩ := hf.1 hwf hes.1 h₁
    obtain ⟨hrest, hd₂⟩ := ih hf.2 (hd₁.wellFormed hwf) (fun e he => hd₁.covers (hes.2 e he)) h₂
    refine ⟨List.forall_mem_cons.2 ⟨hmono hover hd₂.defines.grows, hrest⟩, ?_⟩
    exact (hd₁.trans hd₂).weaken fun x _ hx => .cons hx.1 hx.2

theorem defines_lowerAll {ns : List Lowered} (hexact : ∀ e ∈ es, ExactFor (lower limit deeper) e)
    (hwf : t.WellFormed) (hes : ∀ e ∈ es, t.layout.Covers e)
    (h : lowerAll limit deeper es t = .ok ns t') :
    (∀ n ∈ ns, n.Over t'.program) ∧
      t.Defines t' fun σ x => List.Forall₂ (Expr.Denotes σ x) es ns := by
  rw [lowerAll_eq_mapM] at h
  exact defines_mapM (fun n p => n.Over p) (fun hover hg => hover.mono hg) hexact hwf hes h

theorem length_of_affines (h : affines limit deeper es t = .ok forms t') :
    forms.length = es.length := length_of_mapM (affines_eq_mapM es ▸ h)

theorem length_of_literals (h : literals limit deeper es t = .ok ls t') :
    ls.length = es.length := length_of_mapM (literals_eq_mapM es ▸ h)

theorem valuesOf_eq_of_forall₂ {σ : Valuation} {as : List α} {f : α → Int}
    (h : List.Forall₂ (fun e a => Expr.value? σ e = some (f a)) es as) :
    valuesOf σ es = (as.map f).map some := by
  induction h with
  | nil => rfl
  | cons hvalue _ ih => rw [valuesOf, hvalue, ih, List.map_cons, List.map_cons]

theorem defines_affines (hexact : ∀ e ∈ es, ExactFor (lower limit deeper) e) (hwf : t.WellFormed)
    (hes : ∀ e ∈ es, t.layout.Covers e) (h : affines limit deeper es t = .ok forms t') :
    (∀ form ∈ forms, form.Below t'.program.columns.size) ∧
      t.Defines t' fun σ x => valuesOf σ es = (forms.map (·.eval x)).map some := by
  rw [affines_eq_mapM] at h
  obtain ⟨hbelow, hd⟩ := defines_mapM (fun form p => form.Below p.columns.size)
    (fun hbelow hg => hbelow.mono hg.size_le)
    (fun e he _ _ _ hwf hc h => defines_affine (hexact e he) hwf hc h) hwf hes h
  exact ⟨hbelow, hd.weaken fun x _ hvalues => valuesOf_eq_of_forall₂ hvalues⟩

theorem defines_literals (hexact : ∀ e ∈ es, ExactFor (lower limit deeper) e) (hwf : t.WellFormed)
    (hes : ∀ e ∈ es, t.layout.Covers e) (h : literals limit deeper es t = .ok ls t') :
    (∀ l ∈ ls, t'.program.IsTruth l) ∧
      t.Defines t' fun σ x => List.Forall₂ (IsTruthOf σ x) es ls := by
  rw [literals_eq_mapM] at h
  exact defines_mapM (fun l p => p.IsTruth l) (fun htruth hg => htruth.mono hg)
    (fun e he _ _ _ hwf hc h => defines_literal (hexact e he) hwf hc h) hwf hes h

end Translate

end Linearization
