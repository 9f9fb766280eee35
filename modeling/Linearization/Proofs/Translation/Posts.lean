import Linearization.Proofs.Expr.Shape
import Linearization.Proofs.Ilp.Enforce
import Linearization.Proofs.Translation.Denotes

/-!
# Constraints that are added exactly

`t.Posts t' bound C` is `Ilp.Imposes` for drafts: the solutions of the later draft are those of the
earlier one that satisfy `C`, extended to new columns. Variables may be registered on the way, of
the declared ones only those in `bound`; `Layout.Fresh` says that these are new and can be chosen.
-/

namespace Linearization

open Linearization.Valuation

/-- The variables are declared, not registered yet, pairwise different and of non-empty domains. -/
structure Layout.Fresh (r : Layout) (vs : List Var) : Prop where
  declared : ∀ v ∈ vs, v.IsDeclared
  new : ∀ v ∈ vs, ¬ r.Has v
  nonempty : ∀ v ∈ vs, v.domain.lower ≤ v.domain.upper
  nodup : (keysOf vs).Nodup

namespace Draft

variable {t t' t'' : Draft} {vs ws : List Var} {C D : Valuation → Assignment → Prop}
  {P : Valuation → Assignment → Prop} {R : Assignment → Prop} {q : Ilp}

/-- The step adds exactly the constraint, and of the declared variables it registers at most the
given ones. -/
structure Posts (t t' : Draft) (bound : List Var) (C : Valuation → Assignment → Prop) : Prop where
  wellFormed : t'.WellFormed
  layout : t.layout.Grows t'.layout
  new : ∀ v, t'.layout.Has v → t.layout.Has v ∨ v.toVarKey ∈ keysOf bound ∨ ¬ v.IsDeclared
  imposes : t.program.Imposes t'.program fun x => C (t.layout.valuation x) x

namespace Posts

theorem grows (h : t.Posts t' vs C) : t.Grows t' := ⟨h.imposes.grows, h.layout⟩

theorem refl (h : t.WellFormed) (vs : List Var)
    (hC : ∀ x, t.program.Solves x → C (t.layout.valuation x) x) : t.Posts t vs C where
  wellFormed := h
  layout := .refl _
  new _ hv := .inl hv
  imposes := .refl h.program hC

theorem of_program (h : t.WellFormed) (vs : List Var) (hR : t.program.Imposes q R) :
    t.Posts { t with program := q } vs fun _ x => R x where
  wellFormed := h.of_program hR.grows hR.wellFormed rfl
  layout := .refl _
  new _ hv := .inl hv
  imposes := hR

theorem congr (h : t.Posts t' vs C) (hCD : ∀ x, t.program.Solves x →
    (C (t.layout.valuation x) x ↔ D (t.layout.valuation x) x)) : t.Posts t' vs D :=
  ⟨h.wellFormed, h.layout, h.new, h.imposes.congr hCD⟩

/-- What no solution is lost to is no constraint. -/
theorem of_defines (h : t.WellFormed) (vs : List Var) (hd : t.Defines t' P) :
    t.Posts t' vs fun _ _ => True where
  wellFormed := hd.wellFormed h
  layout := by
    rw [hd.layout]
    exact .refl _
  new v hv := by
    rw [hd.layout] at hv
    exact .inl hv
  imposes := Ilp.Extends.weaken hd.defines fun _ _ _ => trivial

theorem after_defines (hd : t.Defines t' P) (h : t'.Posts t'' vs C)
    (hCD : ∀ x, t'.program.Solves x → P (t.layout.valuation x) x →
      (C (t.layout.valuation x) x ↔ D (t.layout.valuation x) x))
    (hlocal : Local t.program.columns.size fun x => D (t.layout.valuation x) x) :
    t.Posts t'' vs D := by
  obtain ⟨hwf, hlayout, hnew, himposes⟩ := h
  rw [hd.layout] at hlayout hnew himposes
  exact ⟨hwf, hlayout, hnew, .of_defines hd.defines himposes hCD hlocal⟩

theorem before_defines (h : t.Posts t' vs C) (hd : t'.Defines t'' P) : t.Posts t'' vs C := by
  obtain ⟨hwf, hlayout, hnew, himposes⟩ := h
  rw [← hd.layout] at hlayout hnew
  refine ⟨hd.wellFormed hwf, hlayout, hnew, ?_⟩
  exact (Ilp.Extends.trans himposes hd.defines fun _ _ _ _ _ _ _ => trivial).weaken
    fun _ _ hx => hx.1

theorem trans (h : t.Posts t' vs C) (h' : t'.Posts t'' ws D)
    (hD : ∀ x, D (t'.layout.valuation x) x ↔ D (t.layout.valuation x) x)
    (hlocal : Local t.program.columns.size fun x => D (t.layout.valuation x) x) :
    t.Posts t'' (vs ++ ws) fun σ x => C σ x ∧ D σ x where
  wellFormed := h'.wellFormed
  layout := h.layout.trans h'.layout
  new v hv := by
    rw [keysOf, List.map_append, List.mem_append]
    rcases h'.new v hv with hv | hv | hv
    · rcases h.new v hv with hv | hv | hv
      · exact .inl hv
      · exact .inr (.inl (.inl hv))
      · exact .inr (.inr hv)
    · exact .inr (.inl (.inr hv))
    · exact .inr (.inr hv)
  imposes := h.imposes.trans (h'.imposes.congr fun x _ => hD x) hlocal

end Posts

end Draft

namespace Layout.Fresh

variable {r s : Layout} {vs ws : List Var}

theorem nil (r : Layout) : r.Fresh [] :=
  ⟨List.forall_mem_nil _, List.forall_mem_nil _, List.forall_mem_nil _, List.nodup_nil⟩

theorem left (h : r.Fresh (vs ++ ws)) : r.Fresh vs where
  declared v hv := h.declared v (List.mem_append_left _ hv)
  new v hv := h.new v (List.mem_append_left _ hv)
  nonempty v hv := h.nonempty v (List.mem_append_left _ hv)
  nodup := by
    have hnodup := h.nodup
    rw [keysOf, List.map_append] at hnodup
    exact hnodup.of_append_left

theorem right (h : r.Fresh (vs ++ ws))
    (hnew : ∀ v, s.Has v → r.Has v ∨ v.toVarKey ∈ keysOf vs ∨ ¬ v.IsDeclared) : s.Fresh ws where
  declared v hv := h.declared v (List.mem_append_right _ hv)
  new v hv hhas := by
    rcases hnew v hhas with hhas | hmem | hdeclared
    · exact h.new v (List.mem_append_right _ hv) hhas
    · have hnodup := h.nodup
      rw [keysOf, List.map_append] at hnodup
      exact hnodup.disjoint hmem (List.mem_map_of_mem hv)
    · exact hdeclared (h.declared v (List.mem_append_right _ hv))
  nonempty v hv := h.nonempty v (List.mem_append_right _ hv)
  nodup := by
    have hnodup := h.nodup
    rw [keysOf, List.map_append] at hnodup
    exact hnodup.of_append_right

end Layout.Fresh

namespace Translate

open Literal

variable {t t' : Draft} {e : Expr} {es : List Expr} {guards : List Literal}

/-- Whenever every guard is true, the condition on the values of the variables holds. -/
def Guarded (guards : List Literal) (P : Valuation → Prop) (σ : Valuation) (x : Assignment) :
    Prop := AllHold guards x → P σ

theorem local_guarded (hwf : t.WellFormed) (hg : ∀ g ∈ guards, t.program.IsTruth g)
    (P : Valuation → Prop) :
    Local t.program.columns.size fun x => Guarded guards P (t.layout.valuation x) x :=
  (local_allHold fun g h => (hg g h).column_lt).imp (hwf.local_valuation P)

/-- Imposing the expression adds exactly that it holds whenever every guard is true. -/
def PostsFor (f : Expr → List Literal → Translate Unit) (e : Expr) : Prop :=
  ∀ ⦃t t' : Draft⦄ ⦃guards : List Literal⦄ ⦃u : Unit⦄, t.WellFormed → t.layout.Covers e →
    t.layout.Fresh e.bound → (∀ g ∈ guards, t.program.IsTruth g) → f e guards t = .ok u t' →
    t.Posts t' e.bound (Guarded guards fun σ => e.holds σ = true)

theorem posts_forM {f : Expr → List Literal → Translate Unit} {u : PUnit}
    (hf : ∀ e ∈ es, PostsFor f e) (hwf : t.WellFormed) (hes : ∀ e ∈ es, t.layout.Covers e)
    (hfresh : t.layout.Fresh (boundInAll es)) (hg : ∀ g ∈ guards, t.program.IsTruth g)
    (h : (es.forM fun e => f e guards) t = .ok u t') :
    t.Posts t' (boundInAll es) (Guarded guards fun σ => holdsAll σ es = true) := by
  induction es generalizing t with
  | nil =>
    obtain ⟨-, rfl⟩ := pure_eq_ok.1 h
    exact .refl hwf _ fun x _ _ => rfl
  | cons e es ih =>
    rw [List.forall_mem_cons] at hf hes
    rw [List.forM_eq_forM, List.forM_cons] at h
    obtain ⟨u', t₁, h₁, h₂⟩ := bind_eq_ok.1 h
    have hfirst := hf.1 hwf hes.1 hfresh.left hg h₁
    have hrest := ih hf.2 hfirst.wellFormed (fun d hd => hfirst.layout.covers (hes.2 d hd))
      (hfresh.right hfirst.new) (fun g h => (hg g h).mono hfirst.imposes.grows) h₂
    have hsame : ∀ x, holdsAll (t₁.layout.valuation x) es = true ↔
        holdsAll (t.layout.valuation x) es = true := fun x => by
      rw [holdsAll_iff, holdsAll_iff]
      exact forall₂_congr fun d hd => by rw [hfirst.layout.holds (hes.2 d hd)]
    refine (hfirst.trans hrest (fun x => imp_congr Iff.rfl (hsame x))
      (local_guarded hwf hg _)).congr fun x _ => ?_
    show (AllHold guards x → _) ∧ (AllHold guards x → _) ↔ (AllHold guards x → (_ && _) = true)
    rw [Bool.and_eq_true]
    exact imp_and.symm

end Translate

end Linearization
