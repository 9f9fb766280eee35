import Linearization.Proofs.Translation.Parallel

/-!
# Names do not matter

Variables are told apart by their identities; a name is only copied into the column of its variable.
The translation of a model with renamed variables fails for the same reason, or it has the same rows
and columns, with the new names on the columns of the renamed variables (`Model.translate_rename`).
It does not matter whether several variables get one name or whether a name is one that the
translation gives to columns of its own.

The two runs are compared step by step (`Mirrors`), both when they succeed and when they fail: for
lowerings by induction over their elementary steps, of which none reads a name, and for translations
by induction over those that a translation and its renamed version share.
-/

namespace Linearization

section Runs

variable {ε σ α β : Type} {R : σ → σ → Prop} {E : ε → ε → Prop}

/-- Two outcomes of the same kind: the same result in related states, or related failures. -/
inductive SameOutcome (R : σ → σ → Prop) (E : ε → ε → Prop) :
    EStateM.Result ε σ α → EStateM.Result ε σ α → Prop where
  | ok (a : α) {s s' : σ} (h : R s s') : SameOutcome R E (.ok a s) (.ok a s')
  | error {e e' : ε} (h : E e e') (s s' : σ) : SameOutcome R E (.error e s) (.error e' s')

/-- From related states the two steps have outcomes of the same kind. -/
def Mirrors (R : σ → σ → Prop) (E : ε → ε → Prop) (m m' : EStateM ε σ α) : Prop :=
  ∀ ⦃s s'⦄, R s s' → SameOutcome R E (m s) (m' s')

namespace Mirrors

variable {m m' : EStateM ε σ α}

theorem pure (a : α) : Mirrors R E (Pure.pure a : EStateM ε σ α) (Pure.pure a) :=
  fun _ _ h => .ok a h

theorem throw {e e' : ε} (h : E e e') :
    Mirrors R E (MonadExcept.throw e : EStateM ε σ α) (MonadExcept.throw e') :=
  fun s s' _ => .error h s s'

/-- The rest only has to be compared for what the first part can return. -/
theorem bind {f f' : α → EStateM ε σ β} (h : Mirrors R E m m')
    (h' : ∀ a, (∃ s t, m s = .ok a t) → Mirrors R E (f a) (f' a)) :
    Mirrors R E (m >>= f) (m' >>= f') := by
  intro s s' hs
  have hfirst := h hs
  generalize hm : m s = r at hfirst
  generalize hm' : m' s' = r' at hfirst
  cases hfirst with
  | ok a ht =>
    rw [bind_of_ok hm, bind_of_ok hm']
    exact h' a ⟨s, _, hm⟩ ht
  | error he t t' =>
    rw [bind_of_error hm, bind_of_error hm']
    exact .error he t t'

theorem forM_map {f : α → EStateM ε σ PUnit} {f' : β → EStateM ε σ PUnit} {g : α → β}
    (h : ∀ a, Mirrors R E (f a) (f' (g a))) (as : List α) :
    Mirrors R E (as.forM f) ((as.map g).forM f') := by
  induction as with
  | nil => exact .pure _
  | cons a as ih =>
    rw [List.forM_eq_forM, List.forM_eq_forM] at ih ⊢
    rw [List.map_cons, List.forM_cons, List.forM_cons]
    exact (h a).bind fun _ _ => ih

end Mirrors

end Runs

/-! ## Lowerings -/

/-- The programs are the same but for the names of some columns; `Named i name` says that the column
`i` may have the name in the second program. -/
structure Ilp.SameButNames (Named : Nat → String → Prop) (p p' : Ilp) : Prop where
  rows : p'.rows = p.rows
  objective : p'.objective = p.objective
  trueColumn : p'.trueColumn = p.trueColumn
  encodings : p'.encodings = p.encodings
  enumerationLimit : p'.enumerationLimit = p.enumerationLimit
  size : p'.columns.size = p.columns.size
  column : ∀ (i : Nat) (c : Column), p.columns[i]? = some c →
    ∃ name, p'.columns[i]? = some { c with name } ∧ (name = c.name ∨ Named i name)

namespace Ilp.SameButNames

variable {Named Named' : Nat → String → Prop} {p p' : Ilp} {c c' : Column}

theorem refl (p : Ilp) : p.SameButNames Named p :=
  ⟨rfl, rfl, rfl, rfl, rfl, rfl, fun _ c hc => ⟨c.name, hc, .inl rfl⟩⟩

theorem mono (h : p.SameButNames Named p') (hnamed : ∀ i name, Named i name → Named' i name) :
    p.SameButNames Named' p' where
  __ := h
  column i c hc := by
    obtain ⟨name, hc', hname⟩ := h.column i c hc
    exact ⟨name, hc', hname.imp id (hnamed i name)⟩

/-- Nothing but names tells the columns apart. -/
theorem sameBounds (h : p.SameButNames Named p') : p.SameBounds p' := by
  intro i
  cases hp : p.columns[i]? with
  | none =>
    have hp' : p'.columns[i]? = none :=
      Array.getElem?_eq_none (h.size ▸ Array.getElem?_eq_none_iff.1 hp)
    rw [hp']
  | some c =>
    obtain ⟨name, hc', -⟩ := h.column i c hp
    rw [hc', Option.map_some, Option.map_some]

theorem withColumn (h : p.SameButNames Named p') {name : String} (hc : c' = { c with name })
    (hname : name = c.name ∨ Named p.columns.size name) :
    (p.withColumn c).SameButNames Named (p'.withColumn c') where
  rows := h.rows
  objective := h.objective
  trueColumn := h.trueColumn
  encodings := h.encodings
  enumerationLimit := h.enumerationLimit
  size := by rw [p.size_withColumn, p'.size_withColumn, h.size]
  column i d hd := by
    show ∃ name, (p'.columns.push c')[i]? = some { d with name } ∧ _
    have hd : (p.columns.push c)[i]? = some d := hd
    rw [Array.getElem?_push] at hd ⊢
    rw [h.size]
    split at hd
    · rename_i hi
      cases hd
      rw [if_pos hi]
      exact ⟨name, by rw [hc], hi ▸ hname⟩
    · rename_i hi
      rw [if_neg hi]
      exact h.column i d hd

theorem withAuxiliary (h : p.SameButNames Named p') (c : Column) :
    (p.withColumn c).SameButNames Named (p'.withColumn c) := h.withColumn rfl (.inl rfl)

end Ilp.SameButNames

namespace Lowering

open Ilp

variable {α : Type} {m : Lowering α} {Named : Nat → String → Prop}

/-- The two steps have outcomes of the same kind, in programs that are the same but for names. -/
abbrev MirrorsNames (Named : Nat → String → Prop) (m m' : Lowering α) : Prop :=
  Mirrors (SameButNames Named) Eq m m'

theorem mirrors_read {g : Ilp → Except LoweringError α} (hg : ReadsBounds g) :
    MirrorsNames Named (get >>= fun p => (liftM (g p) : Lowering α))
      (get >>= fun p => liftM (g p)) := by
  intro p p' hp
  rw [get_bind, get_bind, ← hg p p' hp.sameBounds]
  cases g p with
  | ok a => exact .ok a hp
  | error error => exact .error rfl p p'

theorem mirrors_addColumn (c : Column) : MirrorsNames Named (addColumn c) (addColumn c) := by
  intro p p' hp
  show SameOutcome _ _ (.ok p.columns.size (p.withColumn c)) (.ok p'.columns.size (p'.withColumn c))
  rw [hp.size]
  exact .ok _ (hp.withAuxiliary c)

/-- In the name of an auxiliary column stands its number, which is the same. -/
theorem mirrors_auxiliaryName (purpose : String) :
    MirrorsNames Named (auxiliaryName purpose) (auxiliaryName purpose) := by
  intro p p' hp
  let name (size : Nat) : String := s!"_{purpose}{size}"
  show SameOutcome _ _ (.ok (name p.columns.size) p) (.ok (name p'.columns.size) p')
  rw [hp.size]
  exact .ok _ hp

theorem mirrors_trueLiteral : MirrorsNames Named trueLiteral trueLiteral := by
  intro p p' hp
  cases h : p.trueColumn with
  | some i =>
    rw [trueLiteral_of_some h, trueLiteral_of_some (hp.trueColumn.trans h)]
    exact .ok _ hp
  | none =>
    rw [trueLiteral_of_none h, trueLiteral_of_none (hp.trueColumn.trans h), hp.size]
    have hcolumn := hp.withAuxiliary ⟨"_true", 1, 1, true⟩
    refine .ok _ { hcolumn with trueColumn := ?_ }
    show some p'.columns.size = some p.columns.size
    rw [hp.size]

/-- The encodings that are kept are the same ones. -/
theorem mirrors_encode {e : Affine} (h : ∀ lower upper,
    MirrorsNames Named (makeEncoding e lower upper) (makeEncoding e lower upper)) :
    MirrorsNames Named (encode e) (encode e) := by
  refine (mirrors_read (readsBounds_bounds e)).bind fun b _ => ?_
  dsimp only
  split
  · exact mirrors_trueLiteral.bind fun l _ => .pure _
  · intro p p' hp
    have hkept : p'.encoding? e = p.encoding? e := by
      unfold encoding?
      rw [hp.encodings]
    rw [get_bind, get_bind, hkept, hp.enumerationLimit]
    cases p.encoding? e with
    | some kept => exact .ok kept hp
    | none =>
      dsimp only
      split
      · exact .error rfl p p'
      split
      · exact .error rfl p p'
      · exact h b.1 b.2 hp

theorem Composed.mirrors (h : Composed m) : MirrorsNames Named m m := by
  induction h with
  | pure a => exact .pure a
  | throw error => exact .throw rfl
  | bind _ _ ihm ihf => exact ihm.bind fun a ha => ihf a ha
  | read hg => exact mirrors_read hg
  | auxiliaryBool purpose =>
    exact (mirrors_auxiliaryName purpose).bind fun name _ =>
      (mirrors_addColumn _).bind fun i _ => .pure _
  | auxiliaryInt purpose _ =>
    exact (mirrors_auxiliaryName purpose).bind fun name _ => mirrors_addColumn _
  | trueLiteral => exact mirrors_trueLiteral
  | encode e _ ih => exact mirrors_encode ih
  | @addRow r _ =>
    intro p p' hp
    exact .ok () { hp with rows := congrArg (Array.push · r) hp.rows }
  | keep e encoding =>
    intro p p' hp
    exact .ok _ { hp with encodings := congrArg ((e, encoding) :: ·) hp.encodings }
  | setObjective direction e =>
    intro p p' hp
    exact .ok () { hp with objective := rfl }

end Lowering

/-! ## Translations -/

/-- The reason, with the expression in it renamed. -/
def Reason.rename (ρ : VarKey → String) : Reason → Reason
  | variableExponent exponent => variableExponent (exponent.rename ρ)
  | reason => reason

/-- Failures of the same kind, for the same reason and about the same numbers; the expressions and
variables in them correspond. -/
inductive TranslationError.Renames (ρ : VarKey → String) :
    TranslationError → TranslationError → Prop where
  | untranslatable (e : Expr) (reason : Reason) :
    Renames ρ (.untranslatable e reason) (.untranslatable (e.rename ρ) (reason.rename ρ))
  | unregistered (v : Var) : Renames ρ (.unregistered v.name) (.unregistered (v.rename ρ).name)
  | shapeMismatch (left right : Nat) :
    Renames ρ (.shapeMismatch left right) (.shapeMismatch left right)
  | decompositionDepth (e : Expr) (limit : Nat) :
    Renames ρ (.decompositionDepth e limit) (.decompositionDepth (e.rename ρ) limit)
  | fault (cause : Fault) : Renames ρ (.fault cause) (.fault cause)

theorem TranslationError.renames_ofLowering (ρ : VarKey → String) (e : Expr)
    (error : LoweringError) : (ofLowering e error).Renames ρ (ofLowering (e.rename ρ) error) := by
  cases error with
  | fault cause => exact .fault cause
  | _ => exact .untranslatable e (.lowering _)

theorem Relabeling.Refuses.renames {ρ : VarKey → String} {error error' : TranslationError}
    (h : (Relabeling.ofNames ρ).Refuses error error') : error.Renames ρ error' := by
  cases h with
  | @untranslatable e reason hreason =>
    have hsame : reason.rename ρ = reason := by
      cases reason with
      | variableExponent exponent => exact absurd rfl (hreason exponent)
      | _ => rfl
    have hrenames := TranslationError.Renames.untranslatable (ρ := ρ) e reason
    rwa [hsame] at hrenames
  | variableExponent e exponent => exact .untranslatable e (.variableExponent exponent)
  | shapeMismatch left right => exact .shapeMismatch left right
  | fault cause => exact .fault cause

/-- The column is that of a declared variable, which the renaming gives the name. -/
def Layout.Renames (ρ : VarKey → String) (r : Layout) (i : Nat) (name : String) : Prop :=
  ∃ v image, v.IsDeclared ∧ r.get? v = some image ∧ image.column = i ∧ name = ρ v.toVarKey

theorem Layout.Grows.renames {ρ : VarKey → String} {r s : Layout} (h : r.Grows s) (i : Nat)
    (name : String) (hname : r.Renames ρ i name) : s.Renames ρ i name := by
  obtain ⟨v, image, hv, hget, hi, hname⟩ := hname
  exact ⟨v, image, hv, h v image hget, hi, hname⟩

theorem Var.rename_cases (ρ : VarKey → String) (v : Var) :
    (v.rename ρ).name = v.name ∨ v.IsDeclared ∧ (v.rename ρ).name = ρ v.toVarKey := by
  cases h : v.serial with
  | declared number =>
    refine .inr ⟨⟨number, h⟩, ?_⟩
    unfold rename
    rw [h]
  | introduced column => exact .inl (congrArg Var.name (rename_of_introduced h))

theorem Var.toColumn_rename (ρ : VarKey → String) (v : Var) :
    (v.rename ρ).toColumn = { v.toColumn with name := (v.rename ρ).name } := by
  unfold toColumn
  rw [domain_rename, isBool_rename]

/-- The drafts are the same but for the names of variables. -/
structure Draft.Renamed (ρ : VarKey → String) (t t' : Draft) : Prop where
  program : t.program.SameButNames (t.layout.Renames ρ) t'.program
  layout : ∀ v, t'.layout.get? v = t.layout.get? v
  depth : t'.depth = t.depth

namespace Draft.Renamed

variable {ρ : VarKey → String} {t t' : Draft} {v : Var}

theorem get?_rename (h : t.Renamed ρ t') (v : Var) :
    t'.layout.get? (v.rename ρ) = t.layout.get? v :=
  (Layout.get?_congr v.toVarKey_rename).trans (h.layout v)

theorem has_rename (h : t.Renamed ρ t') (v : Var) :
    t'.layout.Has (v.rename ρ) ↔ t.layout.Has v := by
  unfold Layout.Has
  rw [h.get?_rename v]

theorem withVar (h : t.Renamed ρ t') (v : Var) :
    (t.withVar v).Renamed ρ (t'.withVar (v.rename ρ)) := by
  by_cases hv : t.layout.Has v
  · rwa [withVar_of_has hv, withVar_of_has ((h.has_rename v).2 hv)]
  have hgrows : t.layout.Grows (t.withVar v).layout := (t.grows_withVar v).layout
  rw [withVar_of_not_has hv] at hgrows ⊢
  rw [withVar_of_not_has (mt (h.has_rename v).1 hv)]
  have himage : (v.rename ρ).imageAt t'.program.columns.size =
      v.imageAt t.program.columns.size := by
    unfold Var.imageAt
    rw [Var.isBool_rename, h.program.size]
  have hnew : (t.layout.insert v (v.imageAt t.program.columns.size)).get? v =
      some (v.imageAt t.program.columns.size) := by
    rw [Layout.get?_insert, if_pos rfl]
  refine ⟨(h.program.mono hgrows.renames).withColumn (Var.toColumn_rename ρ v) ?_, fun w => ?_,
    h.depth⟩
  · exact (Var.rename_cases ρ v).imp id fun ⟨hdeclared, hname⟩ =>
      ⟨v, _, hdeclared, hnew, Var.column_imageAt v _, hname⟩
  · dsimp only
    rw [Layout.get?_insert, Layout.get?_insert, h.layout w, himage, Var.toVarKey_rename]

theorem withVars (h : t.Renamed ρ t') (vs : List Var) :
    (t.withVars vs).Renamed ρ (t'.withVars (vs.map (Var.rename ρ))) := by
  induction vs generalizing t t' with
  | nil => exact h
  | cons v vs ih => exact ih (h.withVar v)

end Draft.Renamed

namespace Translate

open Draft Lowering

variable {α : Type} {ρ : VarKey → String} {m m' : Translate α}

/-- The two steps have outcomes of the same kind, in drafts that are the same but for names. -/
abbrev MirrorsRenamed (ρ : VarKey → String) (m m' : Translate α) : Prop :=
  Mirrors (Renamed ρ) (TranslationError.Renames ρ) m m'

theorem mirrors_build (e : Expr) {action : Lowering α} (h : Composed action) :
    MirrorsRenamed ρ (build e action) (build (e.rename ρ) action) := by
  intro t t' ht
  have haction := h.mirrors ht.program
  unfold build
  generalize action t.program = r at haction
  generalize action t'.program = r' at haction
  cases haction with
  | ok a hp => exact .ok a ⟨hp, ht.layout, ht.depth⟩
  | error heq p p' =>
    cases heq
    exact .error (TranslationError.renames_ofLowering ρ e _) _ _

theorem mirrors_imageOf (v : Var) : MirrorsRenamed ρ (imageOf v) (imageOf (v.rename ρ)) := by
  intro t t' ht
  unfold imageOf
  rw [get_bind, get_bind, ht.get?_rename v]
  cases t.layout.get? v with
  | some image => exact .ok image ht
  | none => exact .error (.unregistered v) t t'

theorem mirrors_registerAll (vs : List Var) :
    MirrorsRenamed ρ (registerAll vs) (registerAll (vs.map (Var.rename ρ))) := by
  intro t t' ht
  rw [registerAll_run, registerAll_run]
  exact .ok () (ht.withVars vs)

/-- The members of the renamed global are its members, renamed, and what they are used for is done
in the same way. -/
theorem mirrors_members {g : Global} {f f' : List Expr → Translate α}
    (h : ∀ cs, MirrorsRenamed ρ (f cs) (f' (cs.map (Expr.rename ρ)))) :
    MirrorsRenamed ρ (members g >>= f) (members (g.rename ρ) >>= f') := by
  intro t t' ht
  unfold members
  rw [bind_assoc, bind_assoc, get_bind, get_bind, ht.program.size,
    decompose_rename]
  cases g.decompose t.program.columns.size with
  | none =>
    have herror : TranslationError.Renames ρ _ _ :=
      .untranslatable (.global g) (.noDecomposition g.name)
    exact .error (g.name_rename (ρ := ρ) ▸ herror) t t'
  | some d =>
    have hvars : (d.rename ρ).newVars ++ varsOf (d.rename ρ).constraints =
        (d.newVars ++ varsOf d.constraints).map (Var.rename ρ) := by
      rw [List.map_append, ← varsOf_rename]
      rfl
    have hlog : MirrorsRenamed ρ (modify (·.logged g)) (modify (·.logged (g.rename ρ))) :=
      fun s s' hs => .ok _ ⟨hs.program, hs.layout, hs.depth⟩
    simp only [Option.map_some, bind_assoc, pure_bind, hvars]
    exact ((mirrors_registerAll _).bind fun _ _ => hlog.bind fun _ _ => h d.constraints) ht

theorem mirrors_nested (h : MirrorsRenamed ρ m m') : MirrorsRenamed ρ (nested m) (nested m') := by
  intro t t' ht
  have hbelow : Renamed ρ { t with depth := t.depth + 1, deepest := max t.deepest (t.depth + 1) }
      { t' with depth := t'.depth + 1, deepest := max t'.deepest (t'.depth + 1) } :=
    ⟨ht.program, ht.layout, congrArg (· + 1) ht.depth⟩
  have hrun := h hbelow
  unfold nested
  dsimp only
  generalize m _ = r at hrun
  generalize m' _ = r' at hrun
  cases hrun with
  | ok a hs => exact .ok a ⟨hs.program, hs.layout, congrArg (· - 1) hs.depth⟩
  | error he s s' => exact .error he _ _

theorem mirrors_decomposed (limit : Nat) (g : Global) {f f' : List Expr → Translate α}
    (h : ∀ cs, MirrorsRenamed ρ (f cs) (f' (cs.map (Expr.rename ρ)))) :
    MirrorsRenamed ρ (decomposed limit g f) (decomposed limit (g.rename ρ) f') := by
  intro t t' ht
  unfold decomposed
  rw [get_bind, get_bind, ht.depth]
  split
  · exact .error (.decompositionDepth (.global g) limit) t t'
  · exact mirrors_members (fun cs => mirrors_nested (h cs)) ht

theorem Parallel.mirrors {limit : Nat} (h : Parallel (.ofNames ρ) limit limit m m') :
    MirrorsRenamed ρ m m' := by
  induction h with
  | pure a => exact .pure a
  | throw h => exact .throw h.renames
  | bind _ _ ihm ihf => exact ihm.bind ihf
  | build e h => exact mirrors_build e h
  | imageOf v => exact mirrors_imageOf v
  | decomposed g _ ih => exact mirrors_decomposed limit g ih

theorem mirrors_lowerExpr (config : Config) (e : Expr) :
    MirrorsRenamed ρ (lowerExpr config e) (lowerExpr config (e.rename ρ)) := by
  intro t t' ht
  obtain ⟨m, m', hparallel, hm, hm'⟩ :=
    exists_parallel_lowerExpr (.ofNames ρ) config config t t' e
  exact hm' ▸ hm ▸ hparallel.mirrors ht

theorem mirrors_imposeExpr (config : Config) (e : Expr) (guards : List Literal) :
    MirrorsRenamed ρ (imposeExpr config e guards) (imposeExpr config (e.rename ρ) guards) := by
  intro t t' ht
  obtain ⟨m, m', hparallel, hm, hm'⟩ :=
    exists_parallel_imposeExpr (.ofNames ρ) config config t t' e guards
  exact hm' ▸ hm ▸ hparallel.mirrors ht

theorem mirrors_model (config : Config) (m : Model) :
    MirrorsRenamed ρ (Translate.model config m) (Translate.model config (m.rename ρ)) := by
  unfold Translate.model
  rw [m.vars_rename]
  refine (mirrors_registerAll m.vars).bind fun _ _ => ?_
  have hconstraints : MirrorsRenamed ρ (m.constraints.forM fun c => imposeExpr config c [])
      ((m.constraints.map (Expr.rename ρ)).forM fun c => imposeExpr config c []) :=
    .forM_map (fun c => mirrors_imposeExpr config c []) m.constraints
  refine hconstraints.bind fun _ _ => ?_
  unfold Model.rename
  cases m.objective with
  | none => exact .pure _
  | some o =>
    exact (mirrors_lowerExpr config o.expr).bind fun v _ => mirrors_build o.expr
      ((composed_affineOf v).bind fun e _ => .setObjective o.direction e)

end Translate

/-- The translations have the same program but for the names of the columns of declared variables,
which the renaming gives them, and the same layout. -/
structure Translation.SameButNames (ρ : VarKey → String) (tr tr' : Translation) : Prop where
  program : tr.program.SameButNames (tr.layout.Renames ρ) tr'.program
  layout : ∀ v, tr'.layout.get? v = tr.layout.get? v
  userVariables : tr'.userVariables = tr.userVariables

/-- Either both models are translated, to programs that are the same but for the names of the
columns of declared variables, or both translations fail for the same reason. Names of variables are
not read: a renaming may map several of them to one name or to the name of an auxiliary column. -/
theorem Model.translate_rename (config : Config) (m : Model) (ρ : VarKey → String) :
    match m.translate config, (m.rename ρ).translate config with
    | .ok tr, .ok tr' => tr.SameButNames ρ tr'
    | .error error, .error error' => error.Renames ρ error'
    | _, _ => False := by
  have hstart : (Draft.start config.maxDomainEnumeration).Renamed ρ
      (.start config.maxDomainEnumeration) := ⟨.refl _, fun _ => rfl, rfl⟩
  have hrun := Translate.mirrors_model config m hstart
  unfold Model.translate
  generalize Translate.model config m _ = r at hrun
  generalize Translate.model config (m.rename ρ) _ = r' at hrun
  cases hrun with
  | ok u ht =>
    refine ⟨ht.program, ht.layout, ?_⟩
    show (m.rename ρ).vars.length = m.vars.length
    rw [m.vars_rename, List.length_map]
  | error he t t' => exact he

/-- A cycle of two nodes, both renamed to the name of the first column that the cycle gets. -/
example :
    let x : Var := ⟨⟨.declared 0, .int 0 1⟩, "x"⟩
    let y : Var := ⟨⟨.declared 1, .int 0 1⟩, "y"⟩
    let m : Model := { constraints := [.global (.plain .circuit [.var x, .var y])] }
    let names (m : Model) : Option (List String) := (m.translate {}).toOption.map fun tr =>
      (tr.program.columns.toList.map Column.name).take 4
    names m = some ["x", "y", "circuit_order[0]", "circuit_order[1]"] ∧
      names (m.rename fun _ => "circuit_order[0]") =
        some ["circuit_order[0]", "circuit_order[0]", "circuit_order[0]", "circuit_order[1]"] := by
  decide +kernel

end Linearization
