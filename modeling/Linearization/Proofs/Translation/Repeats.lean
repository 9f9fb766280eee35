import Linearization.Proofs.Solve.Faults
import Linearization.Proofs.Translation.Tracking

/-!
# Steps made later

What comes first decides which columns a program has and which variables are registered when a step
is made, but not whether the step succeeds. If it succeeds in a draft, then, unless it fails
incidentally, it does so after other steps from there too (`Repeats.later`), and if it succeeds
after others, it could have been made first (`Repeats.earlier`). The results correspond.
-/

namespace Linearization

/-- Everything in the draft belongs to itself. -/
def Pairing.identity (t : Draft) : Pairing :=
  (.identity (· < t.program.columns.size), .identity t.Scope)

/-- The variables that could be registered in the draft belong to themselves. -/
def Pairing.Fixes (w : Pairing) (t : Draft) : Prop := ∀ k, t.Scope k → w.2.Pairs k k

namespace Pairing

variable {t : Draft} {w w' : Pairing}

theorem Fixes.mono (h : w.Fixes t) (hw : w ≤ w') : w'.Fixes t := fun k hk => hw.2 _ _ (h k hk)

theorem fixes_identity (t : Draft) : (Pairing.identity t).Fixes t := fun _ hk => ⟨rfl, hk⟩

theorem fixes_flip_identity (t : Draft) : (Pairing.identity t).flip.Fixes t :=
  fun _ hk => ⟨rfl, hk⟩

end Pairing

namespace Draft

open Ilp Lowering Translate

variable {t t' t'' s : Draft} {w : Pairing} {v : Var} {vs : List Var} {config : Config}

/-! ## Drafts that continue others -/

/-- Images and columns stay, no second true column appears, and what is registered gets a new
column. -/
structure Appends (t t' : Draft) : Prop where
  images : t.KeepsImages t'
  marksTrue : t.program.MarksTrue → t'.program.MarksTrue
  fresh : ∀ k i, t.column? k = none → t'.column? k = some i → t.program.columns.size ≤ i

namespace Appends

theorem refl (t : Draft) : t.Appends t :=
  ⟨keepsImages_elementary.refl t, id, fun k i hnone hsome => by cases hnone.symm.trans hsome⟩

theorem size_le (h : t.Appends t') : t.program.columns.size ≤ t'.program.columns.size := by
  simpa using List.IsPrefix.length_le h.images.columns

theorem column? (h : t.Appends t') {k : VarKey} {i : Nat} (hk : t.column? k = some i) :
    t'.column? k = some i := by
  obtain ⟨image, hget, hi⟩ := column?_eq_some.1 hk
  exact column?_eq_some.2 ⟨image, h.images.layout _ _ hget, hi⟩

theorem trans (h : t.Appends t') (h' : t'.Appends t'') : t.Appends t'' where
  images := keepsImages_elementary.trans h.images h'.images
  marksTrue := h'.marksTrue ∘ h.marksTrue
  fresh k i hnone hsome := by
    cases hk : t'.column? k with
    | none => exact h.size_le.trans (h'.fresh k i hk hsome)
    | some j =>
      cases (h'.column? hk).symm.trans hsome
      exact h.fresh k i hnone hk

theorem of_layout (h : t.KeepsImages t') (hlayout : t'.layout = t.layout)
    (hmarks : t.program.MarksTrue → t'.program.MarksTrue) : t.Appends t' where
  images := h
  marksTrue := hmarks
  fresh k i hnone hsome := by
    unfold Draft.column? at hnone hsome
    rw [hlayout, hnone] at hsome
    cases hsome

theorem withVar (t : Draft) (v : Var) : t.Appends (t.withVar v) := by
  by_cases hhas : t.layout.Has v
  · rw [withVar_of_has hhas]
    exact refl t
  refine ⟨keepsImages_elementary.withVars t [v], fun hmarks => ?_, fun k i hnone hsome => ?_⟩
  · rw [withVar_of_not_has hhas]
    exact hmarks.withColumn (toColumn_ne_alwaysTrue v)
  · rw [Matched.column?_withVar hhas] at hsome
    split at hsome
    · cases hsome
      exact Nat.le_refl _
    · cases hnone.symm.trans hsome

theorem withVars (t : Draft) (vs : List Var) : t.Appends (t.withVars vs) := by
  induction vs generalizing t with
  | nil => exact refl t
  | cons v vs ih => exact (withVar t v).trans (ih (t.withVar v))

end Appends

theorem appends_elementary : Elementary Appends where
  refl := .refl
  trans := .trans
  build e action haction t := by
    unfold KeepsAt
    have himages : t.KeepsImages (stateAfter (build e action) t) :=
      keepsImages_elementary.build e haction t
    rw [stateAfter_build] at himages ⊢
    exact .of_layout himages rfl (haction.builds t.program).marksTrue
  withVars := .withVars
  logged t g := .of_layout (keepsImages_elementary.logged t g) rfl id
  atDepth t depth deepest := .of_layout (keepsImages_elementary.atDepth t depth deepest) rfl id

/-- The draft after more steps at the same depth, whether they succeeded or not. -/
structure Continues (t t' : Draft) : Prop extends Appends t t' where
  depth : t'.depth = t.depth
  sound : t.Sound → t.Grows t' ∧ t'.Sound

namespace Continues

theorem refl (t : Draft) : t.Continues t := ⟨.refl t, rfl, fun h => ⟨.refl t, h⟩⟩

theorem trans (h : t.Continues t') (h' : t'.Continues t'') : t.Continues t'' where
  toAppends := h.toAppends.trans h'.toAppends
  depth := h'.depth.trans h.depth
  sound ht := by
    obtain ⟨hgrows, ht'⟩ := h.sound ht
    obtain ⟨hgrows', ht''⟩ := h'.sound ht'
    exact ⟨hgrows.trans hgrows', ht''⟩

instance : Std.Refl Continues := ⟨refl⟩

instance : Trans Continues Continues Continues := ⟨trans⟩

end Continues

theorem keeps_lowerExpr (config : Config) (e : Expr) : Keeps Continues (lowerExpr config e) := by
  intro t
  refine ⟨appends_elementary.lowerExpr config e t, ((terminates_at_depth config t).1 e).2.depth,
    fun ht => ?_⟩
  have hmeets : Contract.unrestricted.Meets IsOver (lowerExpr config e) t :=
    meets_lowerExpr config ⟨ht, trivial⟩ trivial
  exact ⟨hmeets.grows, hmeets.holds.sound⟩

theorem keeps_build {α : Type} (e : Expr) {action : Lowering α} (hs : Steady action)
    (hc : Composed action) : Keeps Continues (build e action) := by
  intro t
  have happends : t.Appends (stateAfter (build e action) t) := appends_elementary.build e hc t
  unfold KeepsAt
  rw [stateAfter_build] at happends ⊢
  refine ⟨happends, rfl, fun ht => ?_⟩
  have hsteady : t.program.Grows (stateAfter action t.program) ∧
      (stateAfter action t.program).WellFormed := hs t.program ht.program
  exact ⟨⟨hsteady.1, .refl _⟩, ht.of_program hsteady.2 rfl fun _ _ hc => hsteady.1.column hc⟩

theorem keeps_formBy (config : Config) (e : Expr) :
    Keeps Continues (formBy (lowerExpr config) e) :=
  (keeps_lowerExpr config e).bind fun v => keeps_build e (steady_affineOf v) (composed_affineOf v)

theorem keeps_forms (config : Config) (es : List Expr) :
    Keeps Continues (es.mapM (formBy (lowerExpr config))) := by
  induction es with
  | nil => exact .pure _
  | cons e es ih =>
    rw [List.mapM_cons]
    exact (keeps_formBy config e).bind fun form => ih.bind fun forms => .pure _

/-! ## Orderly drafts -/

/-- What holds of every draft that is reached. -/
structure Orderly (t : Draft) : Prop where
  program : t.program.Regular
  faithful : t.Faithful
  inScope : ∀ v, t.layout.Has v → v.InScope t.program.columns.size

theorem Matched.orderly (h : t.Matched w t') : t.Orderly ∧ t'.Orderly :=
  ⟨⟨h.program.left, h.faithful.1, h.inScope.1⟩, h.program.right, h.faithful.2, h.inScope.2⟩

theorem Orderly.sound (h : t.Orderly) : t.Sound :=
  ⟨h.program.wellFormed, fun _ _ => h.faithful.images⟩

theorem Reachable.appends (h : t.Reachable config) :
    (Draft.start config.maxDomainEnumeration).Appends t := by
  induction h with
  | start => exact .refl _
  | @register t _ v _ ih =>
    obtain ⟨image, hrun⟩ := register_run v t
    rw [stateAfter_of_ok hrun]
    exact ih.trans (.withVar t v)
  | @lower t _ e _ ih => exact ih.trans (appends_elementary.lowerExpr config e t)
  | @impose t _ e _ guards ih => exact ih.trans (appends_elementary.imposeExpr config e guards t)
  | @atDepth t _ depth deepest ih => exact ih.trans (appends_elementary.atDepth t depth deepest)

theorem Reachable.orderly (h : t.Reachable config) : t.Orderly := by
  have hstart : (Draft.start config.maxDomainEnumeration).program.MarksTrue := fun i =>
    ⟨nofun, nofun⟩
  exact ⟨⟨h.wellFormed.program, h.appends.marksTrue hstart⟩, h.appends.images.faithful (.start _),
    h.wellFormed.inScope⟩

/-- What is matched with itself as far as it was there before. -/
theorem meets_identity {P : Nat → Prop} {o o' : Option Nat}
    (hsome : ∀ i, o' = some i → o = some i ∧ P i)
    (hnone : ∀ i, o' = none → o = some i → ¬ P i) : (Matching.identity P).Meets o o' := by
  cases o' with
  | some i =>
    obtain ⟨rfl, hi⟩ := hsome i rfl
    exact .of_pairs ⟨rfl, hi⟩
  | none =>
    cases o with
    | none => exact .of_none
    | some i => exact .of_freeLeft fun j hij => hnone i rfl rfl hij.2

/-- A draft is matched with the one that it continues. -/
theorem Continues.matched (h : t.Continues s) (ht : t.Orderly) (hs : s.Orderly) :
    s.Matched (.identity t) t where
  program := {
    left := hs.program
    right := ht.program
    limit := (h.sound ht.sound).1.program.enumerationLimit
    columns := by
      rintro i j ⟨rfl, hi⟩
      have hc := Array.getElem?_eq_getElem hi
      exact ⟨_, _, h.images.columns.column hc, hc, rfl, rfl⟩
    truth := by
      refine meets_identity (fun i hi => ?_) fun i hnone hi => Nat.not_lt.2 ?_
      · obtain ⟨c, hc, -⟩ := ht.program.wellFormed.trueColumn i hi
        exact ⟨(h.sound ht.sound).1.program.trueColumn i hi, (Array.getElem?_eq_some_iff.1 hc).1⟩
      · exact ht.program.size_le_trueColumn hs.program (h.sound ht.sound).1.program hnone hi
    meets := by
      rintro o o' ⟨k, _, ⟨rfl, -⟩, rfl, rfl⟩
      refine meets_identity (fun i hi => ?_) fun i hnone hi => Nat.not_lt.2 (h.fresh k i hnone hi)
      exact ⟨h.column? hi, (ht.faithful.ordinary hi).lt⟩
    ordinary := by
      rintro o o' ⟨k, k', -, rfl, rfl⟩
      exact ⟨fun i => hs.faithful.ordinary, fun i => ht.faithful.ordinary⟩ }
  faithful := ⟨hs.faithful, ht.faithful⟩
  inScope := ⟨hs.inScope, ht.inScope⟩
  depth := h.depth
  keys := by
    rintro k _ ⟨rfl, hk⟩
    exact ⟨rfl, hk.mono h.size_le, hk⟩

end Draft

namespace Translate

open Draft Ilp Lowering

variable {α β : Type} {t s r s' : Draft} {V : Pairing → α → α → Prop} {m : Translate α}
  {config : Config} {e index : Expr} {es : List Expr} {a a' : α} {w : Pairing}

/-! ## Steps that can be made earlier or later -/

/-- In drafts with the variables of `t` in common, the step does the same. -/
structure Repeats (t : Draft) (V : Pairing → α → α → Prop) (m : Translate α) : Prop where
  tracks : ∀ w : Pairing, w.Fixes t → Tracks w V m m
  keeps : Keeps Continues m

theorem Tracks.again {m' : Translate α} {s' : Draft} (hm : Tracks w V m m')
    (hs : s.Matched w s') (h : m s = .ok a r) : FailsOnly TranslationError.IsIncidental m' s' ∧
      ∀ {a' r'}, m' s' = .ok a' r' → ∃ w, r.Matched w r' ∧ V w a a' := by
  refine ⟨hm.failsOnly hs h, fun h' => ?_⟩
  obtain ⟨w', -, hr, ha⟩ := hm.of_ok hs h h'
  exact ⟨w', hr, ha⟩

namespace Repeats

theorem orderly (hm : Repeats t V m) (ht : t.Orderly) (h : m t = .ok a s) : s.Orderly := by
  have hself := (Continues.refl t).matched ht ht
  obtain ⟨w, -, hmatched, -⟩ := (hm.tracks _ (Pairing.fixes_identity t)).of_ok hself h h
  exact hmatched.orderly.1

/-- What has succeeded after other steps could have been done first. -/
theorem earlier (hm : Repeats t V m) (hts : t.Continues s) (ht : t.Orderly) (hs : s.Orderly)
    (h : m s = .ok a r) : FailsOnly TranslationError.IsIncidental m t ∧
      ∀ {a' r'}, m t = .ok a' r' → ∃ w, r.Matched w r' ∧ V w a a' :=
  (hm.tracks _ (Pairing.fixes_identity t)).again (hts.matched ht hs) h

/-- What has succeeded can be done after other steps too. -/
theorem later (hm : Repeats t V m) (hts : t.Continues s) (ht : t.Orderly) (hs : s.Orderly)
    (h : m t = .ok a r) : FailsOnly TranslationError.IsIncidental m s ∧
      ∀ {a' r'}, m s = .ok a' r' → ∃ w, r.Matched w r' ∧ V w a a' :=
  (hm.tracks _ (Pairing.fixes_flip_identity t)).again (hts.matched ht hs).flip h

end Repeats

theorem alike_of_fixes (he : e.AllVars (Var.InScope t.program.columns.size)) (hw : w.Fixes t) :
    AreAlike w e e :=
  .refl (he.mono fun v hv => hw v.toVarKey hv)

theorem repeats_lowerExpr (config : Config) (he : e.AllVars (Var.InScope t.program.columns.size)) :
    Repeats t (Over Lowered.Corresponds) (lowerExpr config e) :=
  ⟨fun _ hw => tracks_lowerExpr config (alike_of_fixes he hw), keeps_lowerExpr config e⟩

/-- The forms of an index and of the items of an array. -/
def indexAndItems (config : Config) (array : List Expr) (index : Expr) :
    Translate (Affine × List Affine) := do
  let i ← formBy (lowerExpr config) index
  let items ← array.mapM (formBy (lowerExpr config))
  return (i, items)

/-- Both forms and items correspond. -/
def SameItems (w : Pairing) (x x' : Affine × List Affine) : Prop :=
  x.1.Corresponds w.1 x'.1 ∧ List.Forall₂ (Affine.Corresponds w.1) x.2 x'.2

theorem repeats_indexAndItems (config : Config)
    (h : (Expr.element es index).AllVars (Var.InScope t.program.columns.size)) :
    Repeats t SameItems (indexAndItems config es index) := by
  have hself : TracksCalls ⟨lowerExpr config, imposeExpr config⟩
      ⟨lowerExpr config, imposeExpr config⟩ := fun _ _ _ => tracks_lowerExpr config
  cases h with
  | element hitems hindex =>
    refine ⟨fun w hw => ?_, ?_⟩
    · refine (tracks_formBy hself (alike_of_fixes hindex hw)).bind fun w₁ hw₁ i i' hi => ?_
      have halike : List.Forall₂ (AreAlike w₁) es es :=
        List.forall₂_same.2 fun e he => alike_of_fixes (hitems e he) (hw.mono hw₁)
      refine (tracks_forms hself halike).bind fun w₂ hw₂ items items' hitems => ?_
      exact .pure ⟨hi.mono hw₂.1, hitems⟩
    · exact (keeps_formBy config index).bind fun _ => (keeps_forms config es).bind fun _ => .pure _

end Translate

end Linearization
