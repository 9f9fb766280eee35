import Linearization.Proofs.Translation.Parallel

/-!
# Larger limits

The nesting limit and the enumeration limit only decide whether a translation fails. With limits at
least as large, a translation that succeeds does the same steps: it succeeds as well, and its
program differs in the limit that is noted in it alone (`Model.translate_of_le_limits`).

The two runs are compared step by step (`Simulates`), by induction over their elementary steps: for
lowerings `encode` is the one that asks for the enumeration limit, and for translations `decomposed`
is the one that asks for the nesting limit.
-/

namespace Linearization

section Runs

variable {ε σ α β : Type} {R : σ → σ → Prop}

/-- From related states the second step succeeds wherever the first one does, with the same result
and in a related state. -/
def Simulates (R : σ → σ → Prop) (m m' : EStateM ε σ α) : Prop :=
  ∀ ⦃s s' a t⦄, R s s' → m s = .ok a t → ∃ t', m' s' = .ok a t' ∧ R t t'

namespace Simulates

variable {m m' : EStateM ε σ α}

theorem pure (a : α) : Simulates R (Pure.pure a : EStateM ε σ α) (Pure.pure a) := by
  intro s s' b t hs h
  obtain ⟨rfl, rfl⟩ := pure_eq_ok.1 h
  exact ⟨s', rfl, hs⟩

theorem throw (error : ε) : Simulates R (MonadExcept.throw error) m' := by
  intro s s' a t hs h
  cases throw_eq_ok.1 h

/-- The rest only has to be followed for what the first part can return. -/
theorem bind {f f' : α → EStateM ε σ β} (h : Simulates R m m')
    (h' : ∀ a, (∃ s t, m s = .ok a t) → Simulates R (f a) (f' a)) :
    Simulates R (m >>= f) (m' >>= f') := by
  intro s s' b t hs hrun
  obtain ⟨a, u, hm, hf⟩ := bind_eq_ok.1 hrun
  obtain ⟨u', hm', hu⟩ := h hs hm
  obtain ⟨t', hf', ht⟩ := h' a ⟨s, u, hm⟩ hu hf
  exact ⟨t', bind_eq_ok.2 ⟨a, u', hm', hf'⟩, ht⟩

theorem map (h : Simulates R m m') (f : α → β) : Simulates R (f <$> m) (f <$> m') := by
  rw [map_eq_pure_bind, map_eq_pure_bind]
  exact h.bind fun a _ => .pure (f a)

theorem mapM {f f' : α → EStateM ε σ β} (h : ∀ a, Simulates R (f a) (f' a)) (as : List α) :
    Simulates R (as.mapM f) (as.mapM f') := by
  induction as with
  | nil => exact .pure []
  | cons a as ih =>
    rw [List.mapM_cons, List.mapM_cons]
    exact (h a).bind fun b _ => ih.bind fun bs _ => .pure (b :: bs)

theorem forM {f f' : α → EStateM ε σ PUnit} (h : ∀ a, Simulates R (f a) (f' a)) (as : List α) :
    Simulates R (as.forM f) (as.forM f') := by
  induction as with
  | nil => exact .pure _
  | cons a as ih =>
    rw [List.forM_eq_forM] at ih ⊢
    rw [List.forM_cons, List.forM_cons]
    exact (h a).bind fun _ _ => ih

end Simulates

end Runs

/-! ## Lowerings -/

/-- The program under another enumeration limit. -/
def Ilp.withLimit (p : Ilp) (n : Nat) : Ilp := { p with enumerationLimit := n }

/-- The second program is the first one under the limit, which is no smaller. -/
def Ilp.Relaxes (n : Nat) (p p' : Ilp) : Prop := p.enumerationLimit ≤ n ∧ p' = p.withLimit n

namespace Lowering

open Ilp

variable {α : Type} {m : Lowering α} {n : Nat}

theorem simulates_read {g : Ilp → Except LoweringError α} (hg : ReadsBounds g) :
    Simulates (Relaxes n) (get >>= fun p => (liftM (g p) : Lowering α))
      (get >>= fun p => liftM (g p)) := by
  rintro p _ a q ⟨hle, rfl⟩ h
  obtain ⟨_, _, hget, hlift⟩ := bind_eq_ok.1 h
  obtain ⟨rfl, rfl⟩ := get_eq_ok.1 hget
  obtain ⟨ha, rfl⟩ := liftM_eq_ok.1 hlift
  have hsame : g (p.withLimit n) = g p := hg _ _ (.of_columns rfl)
  exact ⟨_, bind_eq_ok.2 ⟨_, _, rfl, liftM_eq_ok.2 ⟨hsame.trans ha, rfl⟩⟩, hle, rfl⟩

theorem simulates_trueLiteral : Simulates (Relaxes n) trueLiteral trueLiteral := by
  rintro p _ l q ⟨hle, rfl⟩ h
  cases htrue : p.trueColumn with
  | some i =>
    have htrue' : (p.withLimit n).trueColumn = some i := htrue
    cases (trueLiteral_of_some htrue).symm.trans h
    exact ⟨_, trueLiteral_of_some htrue', hle, rfl⟩
  | none =>
    have htrue' : (p.withLimit n).trueColumn = none := htrue
    cases (trueLiteral_of_none htrue).symm.trans h
    exact ⟨_, trueLiteral_of_none htrue', hle, rfl⟩

/-- A domain that is small enough for the limit is small enough for a larger one. -/
theorem simulates_encode {e : Affine} (h : ∀ lower upper,
    Simulates (Relaxes n) (makeEncoding e lower upper) (makeEncoding e lower upper)) :
    Simulates (Relaxes n) (encode e) (encode e) := by
  refine (simulates_read (readsBounds_bounds e)).bind fun b _ => ?_
  dsimp only
  split
  · exact simulates_trueLiteral.bind fun l _ => .pure _
  · rintro p _ encoding q ⟨hle, rfl⟩ hrun
    obtain ⟨_, _, hget, hrun⟩ := bind_eq_ok.1 hrun
    obtain ⟨rfl, rfl⟩ := get_eq_ok.1 hget
    have hread : (get : Lowering Ilp) (p.withLimit n) = .ok (p.withLimit n) (p.withLimit n) := rfl
    rw [bind_of_ok hread]
    cases hkept : p.encoding? e with
    | some kept =>
      have hkept' : (p.withLimit n).encoding? e = some kept := hkept
      rw [hkept] at hrun
      rw [hkept']
      exact Simulates.pure kept ⟨hle, rfl⟩ hrun
    | none =>
      have hkept' : (p.withLimit n).encoding? e = none := hkept
      rw [hkept] at hrun
      rw [hkept']
      dsimp only at hrun ⊢
      split at hrun
      · cases throw_eq_ok.1 hrun
      · rename_i hsize
        have hsize' : ¬ Word.span b.1 b.2 > (p.withLimit n).enumerationLimit :=
          Nat.not_lt.2 ((Nat.not_lt.1 hsize).trans hle)
        rw [if_neg hsize']
        split at hrun
        · cases throw_eq_ok.1 hrun
        · rename_i hcapacity
          rw [if_neg hcapacity]
          exact h b.1 b.2 ⟨hle, rfl⟩ hrun

theorem Composed.simulates (h : Composed m) : Simulates (Relaxes n) m m := by
  induction h with
  | pure a => exact .pure a
  | throw error => exact .throw error
  | bind _ _ ihm ihf => exact ihm.bind fun a ha => ihf a ha
  | read hg => exact simulates_read hg
  | trueLiteral => exact simulates_trueLiteral
  | encode e _ ih => exact simulates_encode ih
  | _ =>
    rintro p _ a q ⟨hle, rfl⟩ h
    cases h
    exact ⟨_, rfl, hle, rfl⟩

end Lowering

/-! ## Translations -/

/-- The draft with its program under another enumeration limit. -/
def Draft.withLimit (t : Draft) (n : Nat) : Draft := { t with program := t.program.withLimit n }

/-- The second draft is the first one under the limit, which is no smaller. -/
def Draft.Relaxes (n : Nat) (t t' : Draft) : Prop :=
  t.program.enumerationLimit ≤ n ∧ t' = t.withLimit n

namespace Translate

open Draft Lowering

variable {α : Type} {n limit limit' : Nat}

theorem simulates_build (e : Expr) {action : Lowering α} (h : Composed action) :
    Simulates (Relaxes n) (build e action) (build e action) := by
  rintro t _ a t' ⟨hle, rfl⟩ hrun
  obtain ⟨q, hq, rfl⟩ := build_eq_ok.1 hrun
  obtain ⟨_, hq', hlimit, rfl⟩ := h.simulates ⟨hle, rfl⟩ hq
  exact ⟨_, build_eq_ok.2 ⟨_, hq', rfl⟩, hlimit, rfl⟩

theorem simulates_imageOf (v : Var) : Simulates (Relaxes n) (imageOf v) (imageOf v) := by
  rintro t _ image t' ⟨hle, rfl⟩ hrun
  obtain ⟨hv, rfl⟩ := imageOf_eq_ok hrun
  have hv' : (t.withLimit n).layout.get? v = some image := hv
  refine ⟨t.withLimit n, bind_eq_ok.2 ⟨_, _, rfl, ?_⟩, hle, rfl⟩
  rw [hv']
  rfl

theorem withVars_withLimit (t : Draft) (vs : List Var) (n : Nat) :
    (t.withLimit n).withVars vs = (t.withVars vs).withLimit n := by
  induction vs generalizing t with
  | nil => rfl
  | cons v vs ih =>
    have hvar : (t.withLimit n).withVar v = (t.withVar v).withLimit n := by
      have hlayout : (t.withLimit n).layout.get? v = t.layout.get? v := rfl
      unfold withVar
      rw [hlayout]
      cases t.layout.get? v <;> rfl
    show ((t.withLimit n).withVar v).withVars vs = ((t.withVar v).withVars vs).withLimit n
    rw [hvar, ih]

theorem enumerationLimit_withVars (t : Draft) (vs : List Var) :
    (t.withVars vs).program.enumerationLimit = t.program.enumerationLimit :=
  (t.grows_withVars vs).program.enumerationLimit

theorem simulates_registerAll (vs : List Var) :
    Simulates (Relaxes n) (registerAll vs) (registerAll vs) := by
  rintro t _ u t' ⟨hle, rfl⟩ hrun
  cases (registerAll_run vs t).symm.trans hrun
  refine ⟨_, registerAll_run vs _, ?_, withVars_withLimit t vs n⟩
  rwa [enumerationLimit_withVars]

theorem simulates_members (g : Global) : Simulates (Relaxes n) (members g) (members g) := by
  rintro t _ cs t' ⟨hle, rfl⟩ hrun
  obtain ⟨_, _, hget, hrun⟩ := bind_eq_ok.1 hrun
  obtain ⟨rfl, rfl⟩ := get_eq_ok.1 hget
  have hread : (get : Translate Draft) (t.withLimit n) = .ok (t.withLimit n) (t.withLimit n) := rfl
  have hcolumns : (t.withLimit n).program.columns = t.program.columns := rfl
  unfold members
  rw [bind_of_ok hread, hcolumns]
  cases hd : g.decompose t.program.columns.size with
  | none =>
    rw [hd] at hrun
    cases throw_eq_ok.1 hrun
  | some d =>
    rw [hd] at hrun
    have hlogged : Simulates (Relaxes n) (modify (·.logged g) : Translate PUnit)
        (modify (·.logged g)) := by
      rintro t _ a t' ⟨hle, rfl⟩ h
      cases h
      exact ⟨_, rfl, hle, rfl⟩
    exact ((simulates_registerAll _).bind fun _ _ => hlogged.bind fun _ _ => .pure d.constraints)
      ⟨hle, rfl⟩ hrun

theorem simulates_nested {m m' : Translate α} (h : Simulates (Relaxes n) m m') :
    Simulates (Relaxes n) (nested m) (nested m') := by
  rintro t _ a t' ⟨hle, rfl⟩ hrun
  obtain ⟨s, hs, rfl⟩ := nested_eq_ok hrun
  have hbelow : Relaxes n { t with depth := t.depth + 1, deepest := max t.deepest (t.depth + 1) }
      { t.withLimit n with depth := t.depth + 1, deepest := max t.deepest (t.depth + 1) } :=
    ⟨hle, rfl⟩
  obtain ⟨_, hs', hlimit, rfl⟩ := h hbelow hs
  exact ⟨_, nested_of_ok hs', hlimit, rfl⟩

/-- Below the first limit the depth is below the second one too. -/
theorem simulates_decomposed {f f' : List Expr → Translate α} {g : Global} (hlimit : limit ≤ limit')
    (h : ∀ cs, Simulates (Relaxes n) (f cs) (f' cs)) :
    Simulates (Relaxes n) (decomposed limit g f) (decomposed limit' g f') := by
  rintro t _ a t' ⟨hle, rfl⟩ hrun
  obtain ⟨_, _, hget, hrun⟩ := bind_eq_ok.1 hrun
  obtain ⟨rfl, rfl⟩ := get_eq_ok.1 hget
  split at hrun
  · cases throw_eq_ok.1 hrun
  · rename_i hdepth
    have hread : (get : Translate Draft) (t.withLimit n) = .ok (t.withLimit n) (t.withLimit n) :=
      rfl
    have hdepth' : ¬ (t.withLimit n).depth ≥ limit' :=
      Nat.not_le.2 ((Nat.not_le.1 hdepth).trans_le hlimit)
    unfold decomposed
    rw [bind_of_ok hread, if_neg hdepth']
    exact ((simulates_members g).bind fun cs _ => simulates_nested (h cs)) ⟨hle, rfl⟩ hrun

/-- What two translations have in common succeeds under the larger limits as well. -/
theorem Parallel.simulates (hlimit : limit ≤ limit') {m m' : Translate α}
    (h : Parallel .identity limit limit' m m') : Simulates (Relaxes n) m m' := by
  induction h with
  | pure a => exact .pure a
  | throw _ => exact .throw _
  | bind _ _ ihm ihf => exact ihm.bind ihf
  | build e h => exact simulates_build e h
  | imageOf v => exact simulates_imageOf v
  | decomposed g _ ih =>
    exact simulates_decomposed hlimit fun cs => by simpa [Relabeling.identity] using ih cs

/-! ## Translations of models -/

variable {config config' : Config}

theorem simulates_lowerExpr
    (hdepth : config.maxDecompositionDepth ≤ config'.maxDecompositionDepth) (e : Expr) :
    Simulates (Relaxes n) (lowerExpr config e) (lowerExpr config' e) := by
  intro t t' v s ht hrun
  obtain ⟨m, m', hparallel, hm, hm'⟩ := exists_parallel_lowerExpr .identity config config' t t' e
  obtain ⟨s', hs', hs⟩ := hparallel.simulates hdepth ht (hm.trans hrun)
  exact ⟨s', hm'.symm.trans hs', hs⟩

theorem simulates_imposeExpr
    (hdepth : config.maxDecompositionDepth ≤ config'.maxDecompositionDepth) (e : Expr)
    (guards : List Literal) :
    Simulates (Relaxes n) (imposeExpr config e guards) (imposeExpr config' e guards) := by
  intro t t' u s ht hrun
  obtain ⟨m, m', hparallel, hm, hm'⟩ :=
    exists_parallel_imposeExpr .identity config config' t t' e guards
  obtain ⟨s', hs', hs⟩ := hparallel.simulates hdepth ht (hm.trans hrun)
  exact ⟨s', hm'.symm.trans hs', hs⟩

theorem simulates_model (hdepth : config.maxDecompositionDepth ≤ config'.maxDecompositionDepth)
    (m : Model) : Simulates (Relaxes n) (Translate.model config m) (Translate.model config' m) := by
  refine (simulates_registerAll m.vars).bind fun _ _ => ?_
  have hconstraints := Simulates.forM (R := Relaxes n)
    (fun c => simulates_imposeExpr hdepth c []) m.constraints
  refine hconstraints.bind fun _ _ => ?_
  cases m.objective with
  | none => exact .pure _
  | some o =>
    exact (simulates_lowerExpr hdepth o.expr).bind fun v _ => simulates_build o.expr
      ((composed_affineOf v).bind fun e _ => .setObjective o.direction e)

end Translate

/-- A model that is translated under a configuration is translated under limits that are no smaller,
with the same columns, rows, objective and layout; only the limit noted in the program is another
one. -/
theorem Model.translate_of_le_limits {config config' : Config} {m : Model} {t : Translation}
    (hdepth : config.maxDecompositionDepth ≤ config'.maxDecompositionDepth)
    (henumeration : config.maxDomainEnumeration ≤ config'.maxDomainEnumeration)
    (h : m.translate config = .ok t) :
    m.translate config' =
      .ok { t with program := t.program.withLimit config'.maxDomainEnumeration } := by
  unfold Model.translate at h ⊢
  cases hrun : Translate.model config m (.start config.maxDomainEnumeration) with
  | error error s =>
    rw [hrun] at h
    cases h
  | ok u s =>
    rw [hrun] at h
    cases h
    have hstart : (Draft.start config.maxDomainEnumeration).Relaxes config'.maxDomainEnumeration
        (.start config'.maxDomainEnumeration) := ⟨henumeration, rfl⟩
    obtain ⟨_, hrun', -, rfl⟩ := Translate.simulates_model hdepth m hstart hrun
    rw [hrun']
    rfl

/-- A division by a variable inside a decomposition inside another one. The limits are exactly what
it takes. -/
theorem Model.translate_of_le_limits_of_nested :
    let x : Var := ⟨⟨.declared 0, .int 0 4⟩, "x"⟩
    let y : Var := ⟨⟨.declared 1, .int 1 3⟩, "y"⟩
    let inner : Expr := .global (.defined "inner" []
      [.compare .eq (.op .div [.var x, .var y]) (.const 1)] [])
    let m : Model := { constraints := [.global (.defined "outer" [.var x, .var y] [inner] [])] }
    let config : Config := { maxDecompositionDepth := 2, maxDomainEnumeration := 3 }
    let config' : Config := { maxDecompositionDepth := 32, maxDomainEnumeration := 4096 }
    (m.translate { config with maxDecompositionDepth := 1 }).isOk = false ∧
      (m.translate { config with maxDomainEnumeration := 2 }).isOk = false ∧
      ∃ t, m.translate config = .ok t ∧
        m.translate config' = .ok { t with program := t.program.withLimit 4096 } := by
  intro x y inner m config config'
  have hisOk : (m.translate config).isOk = true := by decide +kernel
  obtain ⟨t, h⟩ : ∃ t, m.translate config = .ok t := by
    cases h : m.translate config with
    | ok t => exact ⟨t, rfl⟩
    | error error =>
      rw [h] at hisOk
      cases hisOk
  exact ⟨by decide +kernel, by decide +kernel, t, h,
    Model.translate_of_le_limits (by decide) (by decide) h⟩

end Linearization
