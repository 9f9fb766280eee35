import Linearization.Proofs.Translation.Model

/-!
# Variables are registered before they are looked up

A lookup fails if the variable has no column. At first only the variables of the model have one:
those that a decomposition introduces are hidden from the search for variables, as far down as the
decomposition reaches, and get their columns when it is expanded. The search is repeated there for
the members, so what a deeper decomposition hides is still left out, and what an enclosing one hid is
found again.

The invariant that this keeps: an expression is worked on only in a draft whose layout covers it.
Hence no lookup ever fails (`Model.translate_ne_unregistered`).
-/

namespace Linearization

namespace Layout

variable {r : Layout} {e : Expr} {es : List Expr} {v : Var}

theorem Covers.of_isVar (h : r.Covers e) (hv : e.IsVar v) : r.Has v := by
  refine h v ?_
  rcases hv with rfl | rfl
  · exact List.mem_singleton_self v
  · exact List.mem_singleton_self v

theorem covers_all (h : ∀ e ∈ es, r.Covers e) : r.Covers (.all es) := by
  intro v hv
  obtain ⟨e, he, hv⟩ := Expr.mem_occurrences_all hv
  exact h e he v hv

end Layout

theorem Draft.covers_withVars (t : Draft) (vs : List Var) (es : List Expr) :
    ∀ e ∈ es, (t.withVars (vs ++ varsOf es)).layout.Covers e := by
  intro e he
  refine Layout.covers_of_varsOf (fun v hv => ?_) he
  exact Draft.has_withVars.2 (.inl (List.mem_map_of_mem (List.mem_append_right vs hv)))

/-- Expressions are translated in drafts that cover them. -/
def Contract.covered : Contract where
  Keeps _ := True
  Admits t e := t.layout.Covers e
  guarded := False
  keeps_of h _ _ _ := h
  admits_mono h hg := hg.layout.covers h
  admits_child h hd := h.child hd
  admits_all h := Layout.covers_all h
  decompose {t _ d} _ _ _ _ := ⟨trivial, t.covers_withVars d.newVars d.constraints⟩

namespace Contract

variable {t : Draft}

theorem covered_holds (h : t.Sound) : Contract.covered.Holds t := ⟨h, trivial⟩

/-- A lookup that failed would be one in a draft that covers the variable. -/
theorem Explains.ne_unregistered {limit : Nat} {error : TranslationError}
    (h : Contract.covered.Explains limit error) (name : String) : error ≠ .unregistered name := by
  intro heq
  obtain ⟨t, v, e, -, hv, hcovers, hhas⟩ := h.unregistered name heq
  exact hhas (hcovers.of_isVar hv)

end Contract

namespace Translate

variable {t t' : Draft} {e : Expr} {config : Config} {error : TranslationError}

/-- A value whose variables are registered is lowered without a failed lookup, at any depth. -/
theorem lowerExpr_ne_unregistered (h : t.Sound) (he : t.layout.Covers e)
    (hrun : lowerExpr config e t = .error error t') (name : String) :
    error ≠ .unregistered name :=
  ((meets_lowerExpr config (Contract.covered_holds h) he).explains error t' hrun).ne_unregistered
    name

theorem imposeExpr_ne_unregistered {guards : List Literal} (h : t.Sound) (he : t.layout.Covers e)
    (hrun : imposeExpr config e guards t = .error error t') (name : String) :
    error ≠ .unregistered name :=
  ((meets_imposeExpr config (Contract.covered_holds h) he nofun).explains error t'
    hrun).ne_unregistered name

end Translate

/-- The translation of a model fails for other reasons only, whatever the model and its
decompositions contain. -/
theorem Model.translate_ne_unregistered (config : Config) (m : Model) (name : String) :
    m.translate config ≠ .error (.unregistered name) := by
  intro h
  obtain ⟨t, hrun⟩ := Model.translate_eq_error.1 h
  have hroots : ∀ e ∈ m.roots, Contract.covered.Admits
      (Translate.registered config.maxDomainEnumeration m) e :=
    fun e he => Translate.covers_registered he
  have hfinishes : Translate.Finishes .covered (Translate.model config m)
      (.start config.maxDomainEnumeration) := Translate.finishes_model trivial hroots
  exact (hfinishes.explains _ t hrun).ne_unregistered name rfl

/-- A variable that an outer decomposition introduces is used in an inner one and, unhidden, in the
objective. -/
example :
    let x : Var := ⟨⟨.declared 0, .int 0 3⟩, "x"⟩
    let y : Var := ⟨⟨.declared 1, .int 0 3⟩, "y"⟩
    let inner : Expr := .global (.defined "inner" [] [.compare .lt (.var x) (.var y)] [])
    let m : Model := {
      constraints := [.global (.defined "outer" [.var x] [inner] [y])]
      objective := some ⟨.maximize, .var y⟩ }
    (m.translate {}).isOk = true := by decide +kernel

end Linearization
