import Linearization.Proofs.Translation.Matched
import Linearization.Proofs.Translation.Termination

/-!
# Translations that track each other

From matched drafts, lowering an expression on one side and one that is alike on the other go
through the same steps with corresponding results. So if the first succeeds, the second one does
too, unless it fails incidentally: a number leaves its range, or a variable was not registered
(`Translate.tracks_lowerExpr`).

The walk is over a single call of the recursion; only lowering has to be followed, since it never
imposes anything.
-/

namespace Linearization

/-- The failure says nothing about the expression. -/
inductive TranslationError.IsIncidental : TranslationError → Prop where
  | lowering (e : Expr) {error : LoweringError} (h : error.IsIncidental) :
    IsIncidental (ofLowering e error)
  | unregistered (name : String) : IsIncidental (unregistered name)

/-- The images are of the same kind, on matched columns. -/
inductive Image.Corresponds (M : Matching Nat) : Image → Image → Prop where
  | bool {l l' : Literal} (h : l.Corresponds M l') : Image.Corresponds M (.bool l) (.bool l')
  | int {i j : Nat} (h : M.Pairs i j) : Image.Corresponds M (.int i) (.int j)

namespace Translate

open Lowering Ilp

variable {α α' β β' : Type} {V : Matching Nat → α → α' → Prop} {U : Pairing → β → β' → Prop}
  {w : Pairing} {e e' : Expr} {es es' : List Expr} {g g' : Global} {self self' : Deeper}
  {limit : Nat}

/-- Whenever the first step succeeds in one of two matched drafts, the second one does so in the
other, with a corresponding result, or fails incidentally. -/
abbrev Tracks (w : Pairing) (V : Pairing → α → α' → Prop) (m : Translate α) (m' : Translate α') :
    Prop :=
  Follows Draft.Matched TranslationError.IsIncidental w V m m'

/-- The results correspond over the matched columns. -/
abbrev Over (V : Matching Nat → α → α' → Prop) (w : Pairing) : α → α' → Prop := V w.1

/-- The expressions differ in variables that belong together. -/
abbrev AreAlike (w : Pairing) (e e' : Expr) : Prop := e.Alike w.2.Pairs e'

theorem monotonic_areAlike : Monotonic AreAlike := fun _ _ hw _ _ h => h.mono hw.2

theorem monotonic_lowered : Monotonic (Over Lowered.Corresponds) := fun _ _ hw _ _ h => h.mono hw.1

theorem monotonic_affine : Monotonic (Over Affine.Corresponds) := fun _ _ hw _ _ h => h.mono hw.1

theorem monotonic_literal : Monotonic (Over Literal.Corresponds) := fun _ _ hw _ _ h => h.mono hw.1

/-! ## Steps -/

theorem tracks_build (e e' : Expr) {m : Lowering α} {m' : Lowering α'}
    (hm : Keeps KeepsColumns m) (hm' : Keeps KeepsColumns m')
    (h : ∀ roles, Lowering.Tracks roles w.1 V m m') :
    Tracks w (Over V) (build e m) (build e' m') := by
  intro t t' a s hmatched hrun
  obtain ⟨q, hq, rfl⟩ := build_eq_ok.1 hrun
  rcases h _ hmatched.program hq with
    ⟨error, q', hfail, herror⟩ | ⟨N, a', q', hq', hN, hprogram, ha⟩
  · refine .inl ⟨.ofLowering e' error, { t' with program := q' }, ?_, .lowering e' herror⟩
    unfold build
    rw [hfail]
  · exact .inr ⟨(N, w.2), a', _, build_eq_ok.2 ⟨q', hq', rfl⟩, ⟨hN, le_refl _⟩,
      hmatched.of_programs hprogram (hm.of_ok hq) (hm'.of_ok hq'), ha⟩

theorem tracks_composed (e e' : Expr) {m : Lowering α} {m' : Lowering α'} (hm : Composed m)
    (hm' : Composed m') (h : ∀ roles, Lowering.Tracks roles w.1 V m m') :
    Tracks w (Over V) (build e m) (build e' m') :=
  tracks_build e e' hm.keepsColumns hm'.keepsColumns h

/-- Variables that belong together stand for matched columns. -/
theorem tracks_imageOf {v v' : Var} (h : w.2.Pairs v.toVarKey v'.toVarKey) :
    Tracks w (Over Image.Corresponds) (imageOf v) (imageOf v') := by
  intro t t' image s hmatched hrun
  obtain ⟨hget, rfl⟩ := imageOf_eq_ok hrun
  cases hget' : t'.layout.get? v' with
  | none =>
    refine .inl ⟨.unregistered v'.name, t', ?_, .unregistered _⟩
    unfold imageOf
    rw [get_bind, hget']
    rfl
  | some image' =>
    refine .inr ⟨w, image', t', ?_, le_refl w, hmatched, ?_⟩
    · unfold imageOf
      rw [get_bind, hget']
      rfl
    · have hpairs : w.1.Pairs image.column image'.column := by
        have hcolumn : t.column? v.toVarKey = some image.column := congrArg _ hget
        have hcolumn' : t'.column? v'.toVarKey = some image'.column := congrArg _ hget'
        exact (hmatched.program.meets _ _ ⟨_, _, h, hcolumn.symm, hcolumn'.symm⟩).pairs
      have hdomain : v.domain = v'.domain := (hmatched.keys _ _ h).1
      have hbool : v'.isBool = v.isBool := by
        unfold Var.isBool
        rw [hdomain]
      have himage := (hmatched.faithful.1.images hget).1
      have himage' := (hmatched.faithful.2.images hget').1
      rw [himage, himage']
      unfold Var.imageAt
      rw [hbool]
      split
      · exact .bool (.ofColumn hpairs)
      · exact .int hpairs

theorem tracks_nested {m : Translate α} {m' : Translate α'} {V : Pairing → α → α' → Prop}
    (h : Tracks w V m m') : Tracks w V (nested m) (nested m') := by
  intro t t' a s hmatched hrun
  obtain ⟨s, hinner, rfl⟩ := nested_eq_ok hrun
  have hbelow := hmatched.atDepth (t.depth + 1) (max t.deepest (t.depth + 1))
    (max t'.deepest (t'.depth + 1))
  rw [hmatched.depth] at hinner hbelow
  rcases h hbelow hinner with ⟨error, s', hfail, herror⟩ | ⟨u, a', s', hrun', hu, hmatched', ha⟩
  · exact .inl ⟨error, _, nested_of_error hfail, herror⟩
  · refine .inr ⟨u, a', _, nested_of_ok hrun', hu, ?_, ha⟩
    rw [hmatched'.depth]
    exact hmatched'.atDepth _ _ _

theorem tracks_members (hg : g.Alike w.2.Pairs g') :
    Tracks w (fun u => List.Forall₂ (AreAlike u)) (members g) (members g') := by
  have hrun : ∀ {g : Global} {t : Draft} {d : Decomposition},
      g.decompose t.program.columns.size = some d →
      members g t = .ok d.constraints ((t.expanded d).logged g) := by
    intro g t d hd
    unfold members
    rw [get_bind, hd]
    dsimp only
    rw [bind_of_ok (registerAll_run _ t)]
    rfl
  intro t t' cs s hmatched hleft
  cases hd : g.decompose t.program.columns.size with
  | none =>
    unfold members at hleft
    rw [get_bind, hd] at hleft
    cases throw_eq_ok.1 hleft
  | some d =>
    cases (hrun hd).symm.trans hleft
    obtain ⟨u, d', hd', hu, hmatched', halike⟩ := hmatched.expand hg hd
    exact .inr ⟨u, _, _, hrun hd', hu, hmatched'.logged g g', halike⟩

theorem tracks_decomposed {V : Pairing → α → α' → Prop} {f : List Expr → Translate α}
    {f' : List Expr → Translate α'} (hg : g.Alike w.2.Pairs g')
    (hf : ∀ u, w ≤ u → ∀ cs cs', List.Forall₂ (AreAlike u) cs cs' → Tracks u V (f cs) (f' cs')) :
    Tracks w V (decomposed limit g f) (decomposed limit g' f') := by
  refine .get fun t t' hmatched => ?_
  rw [hmatched.depth]
  split
  · exact .throw _
  · exact (tracks_members hg).bind fun u hu cs cs' hcs => tracks_nested (hf u hu cs cs' hcs)

/-! ## Operators -/

theorem tracks_checkArity (o : Operator) {args args' : List Expr}
    (h : args.length = args'.length) :
    Tracks w (fun _ _ _ => True) (checkArity o args) (checkArity o args') := by
  unfold checkArity
  cases o.arity with
  | none => exact .pure trivial
  | some expected =>
    dsimp only
    rw [← h]
    split
    · exact .pure trivial
    · exact .throw _

section Operators

variable {forms forms' : List Affine} {ls ls' : List Literal}

theorem tracks_connective {roles : Option Nat → Option Nat → Prop} {M : Matching Nat} (o : Operator)
    (hls : List.Forall₂ (Literal.Corresponds M) ls ls') :
    Lowering.Tracks roles M Literal.Corresponds (connective o ls) (connective o ls') := by
  cases o with
  | and => exact tracks_conjunction hls
  | or => exact tracks_disjunction hls
  | implies =>
    rcases hls with _ | ⟨ha, _ | ⟨hb, _ | ⟨hc, hls⟩⟩⟩
    · exact .throw _
    · exact .throw _
    · exact tracks_disjunction (.cons ha.negate (.cons hb .nil))
    · exact .throw _
  | _ => exact .throw _

theorem tracks_arithmetic (o : Operator) (args args' : List Expr)
    (hforms : List.Forall₂ (Affine.Corresponds w.1) forms forms') :
    Tracks w (Over Affine.Corresponds) (arithmetic o args forms) (arithmetic o args' forms') := by
  let e : Expr := .op o args
  let e' : Expr := .op o args'
  have hlift : ∀ {x x' : Except LoweringError Affine}, ChecksOnly x' →
      (∀ c c', x = .ok c → x' = .ok c' → c.Corresponds w.1 c') →
      Tracks w (Over Affine.Corresponds) (build e (Lowering.ofExcept x))
        (build e' (Lowering.ofExcept x')) := fun hx' h =>
    tracks_composed e e' (.liftM _) (.liftM _) fun _ => .lift hx' h
  have hsum : Tracks w (Over Affine.Corresponds)
      (build e (Lowering.ofExcept (forms.foldlM Affine.plus (.const 0))))
      (build e' (Lowering.ofExcept (forms'.foldlM Affine.plus (.const 0)))) :=
    hlift (.of_onlyOverflows (onlyOverflows_foldlM_plus _)) fun _ _ h h' =>
      Affine.Corresponds.foldlM_plus hforms (.const _ 0) h h'
  rcases hforms with _ | ⟨ha, _ | ⟨hb, _ | ⟨hc, hforms⟩⟩⟩
  · cases o with
    | sum => exact hsum
    | _ => exact .throw _
  · cases o with
    | sum => exact hsum
    | neg => exact hlift (.of_onlyOverflows (.scale _ _)) fun _ _ h h' => ha.negated h h'
    | abs =>
      exact tracks_composed e e' (composed_absolute _) (composed_absolute _)
        fun _ => tracks_absolute ha
    | _ => exact .throw _
  · cases o with
    | sum => exact hsum
    | sub => exact hlift (.of_onlyOverflows (.minus _ _)) fun _ _ h h' => ha.minus hb h h'
    | mul =>
      exact tracks_composed e e' (composed_product _ _) (composed_product _ _)
        fun _ => tracks_product ha hb
    | div =>
      exact tracks_composed e e' (composed_quotient _ _) (composed_quotient _ _)
        fun _ => tracks_quotient ha hb
    | mod =>
      exact tracks_composed e e' (composed_remainder _ _) (composed_remainder _ _)
        fun _ => tracks_remainder ha hb
    | pow =>
      unfold arithmetic
      dsimp only
      rw [← hb.asConstant]
      split
      · exact tracks_composed e e' (composed_power _ _) (composed_power _ _)
          fun _ => tracks_power ha _
      · exact .throw _
    | _ => exact .throw _
  · cases o with
    | sum => exact hsum
    | _ => exact .throw _

end Operators

/-! ## Items and extrema -/

section Items

variable {forms forms' items items' : List Affine} {roles : Option Nat → Option Nat → Prop}
  {M : Matching Nat} {index index' : Affine}

theorem checksOnly_hull (p : Ilp) (forms : List Affine) : ChecksOnly (hull p forms) := by
  induction forms with
  | nil => exact nofun
  | cons form forms ih =>
    intro error herror
    rw [hull] at herror
    cases hb : p.bounds form with
    | error error' =>
      simp only [hb, bind, Except.bind] at herror
      cases herror
      exact checksOnly_bounds p form error hb
    | ok b =>
      cases hrest : hull p forms with
      | error error' =>
        simp only [hb, hrest, bind, Except.bind] at herror
        cases herror
        exact ih error hrest
      | ok rest =>
        simp only [hb, hrest, bind, Except.bind] at herror
        cases rest <;> cases herror

theorem hull_eq_of_matched {p p' : Ilp} (h : p.Matched roles M p')
    (hforms : List.Forall₂ (Affine.Corresponds M) forms forms') {b b' : Option (Int × Int)}
    (hb : hull p forms = .ok b) (hb' : hull p' forms' = .ok b') : b = b' := by
  induction hforms generalizing b b' with
  | nil =>
    cases hb
    cases hb'
    rfl
  | cons hform _ ih =>
    obtain ⟨l, u, rest, hbounds, hrest, rfl⟩ := hull_cons hb
    obtain ⟨l', u', rest', hbounds', hrest', rfl⟩ := hull_cons hb'
    cases h.bounds_eq hform hbounds hbounds'
    rw [ih hrest hrest']

theorem tracks_hull (hforms : List.Forall₂ (Affine.Corresponds M) forms forms') :
    Lowering.Tracks roles M (fun _ => Eq) (do hull (← get) forms) (do hull (← get) forms') :=
  .get fun _ p' hmatched => Lowering.Tracks.lift (checksOnly_hull p' forms') fun _ _ hb hb' =>
    hull_eq_of_matched hmatched hforms hb hb'

theorem tracks_bounds (h : index.Corresponds M index') :
    Lowering.Tracks roles M (fun _ => Eq) (Lowering.bounds index) (Lowering.bounds index') :=
  .get fun _ p' hmatched => Lowering.Tracks.lift (checksOnly_bounds p' index') fun _ _ hb hb' =>
    hmatched.bounds_eq h hb hb'

theorem tracks_enforceElement (h : index.Corresponds M index') (target target' : Affine)
    (guards guards' : List Literal) :
    Lowering.Tracks roles M Anything (enforceElement index items target guards)
      (enforceElement index' items' target' guards') :=
  (tracks_encode h).bind fun _ _ _ _ _ =>
    Lowering.Tracks.quiet (quiet_selectEach _ _ _ _) (quiet_selectEach _ _ _ _)

theorem itemAt?_rel {R : Affine → Affine → Prop} (h : List.Forall₂ R items items')
    (position : Int) :
    Option.Rel R (itemAt? items position) (itemAt? items' position) := by
  unfold itemAt?
  split
  · exact .none
  · generalize position.toNat = n
    induction h generalizing n with
    | nil => exact .none
    | cons hfirst _ ih =>
      cases n with
      | zero => exact .some hfirst
      | succ n => exact ih n

theorem tracks_auxiliaryInt (e e' : Expr) (purpose : String) (lower upper : Int) :
    Tracks w (Over Matching.Pairs) (build e (Lowering.auxiliaryInt purpose lower upper))
      (build e' (Lowering.auxiliaryInt purpose lower upper)) :=
  tracks_build e e' (fun p => keepsColumns_withColumn p _) (fun p => keepsColumns_withColumn p _)
    fun _ => .auxiliaryInt purpose lower upper

/-- Both sides read the same bounds of their index, and find the same items out of reach. -/
theorem tracks_selectItem (e e' : Expr) (hindex : index.Corresponds w.1 index')
    (hitems : List.Forall₂ (Affine.Corresponds w.1) items items') :
    Tracks w (Over Lowered.Corresponds) (selectItem e index items)
      (selectItem e' index' items') := by
  unfold selectItem
  rw [← hindex.asConstant]
  split
  · rename_i position _
    have hrel := itemAt?_rel hitems position
    generalize itemAt? items position = found,
      itemAt? items' position = found' at hrel ⊢
    cases hrel with
    | some hitem => exact .pure (.ofAffine hitem)
    | none => exact .throw _
  refine (tracks_composed e e' (.read (readsBounds_hull items)) (.read (readsBounds_hull items'))
    fun _ => tracks_hull hitems).bind fun u hu found _ hfound => ?_
  cases hfound
  cases found with
  | none => exact .throw _
  | some interval =>
    refine (tracks_composed e e' (.read (readsBounds_bounds index))
      (.read (readsBounds_bounds index')) fun _ =>
        tracks_bounds (hindex.mono hu.1)).bind fun u₁ hu₁ range _ hrange => ?_
    cases hrange
    dsimp only
    rw [← hitems.length_eq]
    split
    · exact .throw _
    · refine (tracks_auxiliaryInt e e' _ _ _).bind fun u₂ hu₂ i j hij => ?_
      refine (tracks_composed e e' (composed_enforceElement _ _ _ _)
        (composed_enforceElement _ _ _ _) fun _ =>
          tracks_enforceElement (hindex.mono (le_trans hu.1 (le_trans hu₁.1 hu₂.1))) _ _ _
            _).bind fun u₃ hu₃ _ _ _ => ?_
      exact .pure (.column (hu₃.1 _ _ hij))

theorem tracks_extremum (kind : GlobalKind) (args args' : List Expr)
    (hforms : List.Forall₂ (Affine.Corresponds w.1) forms forms') :
    Tracks w (Over Lowered.Corresponds) (extremum kind args forms)
      (extremum kind args' forms') := by
  let e : Expr := .global (.plain kind args)
  let e' : Expr := .global (.plain kind args')
  refine (tracks_composed e e' (.read (readsBounds_hull forms)) (.read (readsBounds_hull forms'))
    fun _ => tracks_hull hforms).bind fun u hu found _ hfound => ?_
  cases hfound
  cases found with
  | none => exact .throw _
  | some interval =>
    refine (tracks_auxiliaryInt e e' _ _ _).bind fun u₁ hu₁ i j hij => ?_
    have hextremum : ∀ op, Tracks u₁ (Over Anything)
        (build e (addExtremum (.ofColumn i) forms op))
        (build e' (addExtremum (.ofColumn j) forms' op)) := fun op =>
      tracks_composed e e' (composed_addExtremum _ _ op) (composed_addExtremum _ _ op) fun _ =>
        .quiet (quiet_addExtremum _ _ op) (quiet_addExtremum _ _ op)
    dsimp only
    split
    · exact (hextremum .le).bind fun u₂ hu₂ _ _ _ => .pure (.column (hu₂.1 _ _ hij))
    · exact (hextremum .ge).bind fun u₂ hu₂ _ _ _ => .pure (.column (hu₂.1 _ _ hij))

end Items

/-! ## One call -/

/-- The second call of lowering does for expressions that are alike what the first one does. -/
def TracksCalls (self self' : Deeper) : Prop :=
  ∀ w e e', AreAlike w e e' → Tracks w (Over Lowered.Corresponds) (self.lower e) (self'.lower e')

section Calls

variable (hself : TracksCalls self self')

include hself

theorem tracks_formBy (h : AreAlike w e e') :
    Tracks w (Over Affine.Corresponds) (formBy self.lower e) (formBy self'.lower e') :=
  (hself w e e' h).bind fun _ _ _ _ hv =>
    tracks_composed e e' (composed_affineOf _) (composed_affineOf _) fun _ => tracks_affineOf hv

theorem tracks_literalBy (h : AreAlike w e e') :
    Tracks w (Over Literal.Corresponds) (literalBy self.lower e) (literalBy self'.lower e') :=
  (hself w e e' h).bind fun _ _ _ _ hv =>
    tracks_composed e e' (composed_literalOf _) (composed_literalOf _) fun _ => tracks_literalOf hv

theorem tracks_forms (h : List.Forall₂ (AreAlike w) es es') :
    Tracks w (fun u => List.Forall₂ (Over Affine.Corresponds u)) (es.mapM (formBy self.lower))
      (es'.mapM (formBy self'.lower)) :=
  .mapM monotonic_affine monotonic_areAlike h fun _ _ _ _ he => tracks_formBy hself he

theorem tracks_literals (h : List.Forall₂ (AreAlike w) es es') :
    Tracks w (fun u => List.Forall₂ (Over Literal.Corresponds u)) (es.mapM (literalBy self.lower))
      (es'.mapM (literalBy self'.lower)) :=
  .mapM monotonic_literal monotonic_areAlike h fun _ _ _ _ he => tracks_literalBy hself he

theorem tracks_conjunctionBy (limit : Nat) (h : g.Alike w.2.Pairs g') :
    Tracks w (Over Lowered.Corresponds)
      (Lowered.literal <$> decomposed limit g fun cs => literalBy self.lower (.all cs))
      (Lowered.literal <$> decomposed limit g' fun cs => literalBy self'.lower (.all cs)) :=
  (tracks_decomposed h fun _ _ _ _ hcs => tracks_literalBy hself (alike_nary .and hcs)).map
    fun _ _ _ _ hl => .literal hl

theorem tracks_callLower (h : AreAlike w e e') :
    Tracks w (Over Lowered.Corresponds) (Deeper.callLower limit self e)
      (Deeper.callLower limit self' e') := by
  cases h with
  | const c => exact .pure (.const c)
  | var hv =>
    refine (tracks_imageOf hv).bind fun u _ image image' himage => ?_
    cases himage with
    | bool hl => exact .pure (.literal hl)
    | int hij => exact .pure (.column hij)
  | complement hv =>
    refine (tracks_imageOf hv).bind fun u _ image image' himage => ?_
    cases himage with
    | bool hl => exact .pure (.literal hl.negate)
    | int hij => exact .throw _
  | list hes =>
    exact (Follows.mapM monotonic_lowered monotonic_areAlike hes fun u _ e e' he =>
      hself u e e' he).bind fun _ _ _ _ hvs => .pure (.sequence hvs)
  | @op o args args' hargs =>
    refine (tracks_checkArity o hargs.length_eq).bind fun u hu _ _ _ => ?_
    replace hargs := monotonic_areAlike.forall₂ hu hargs
    have hconnective := (tracks_literals hself hargs).bind fun _ _ _ _ hls =>
      (tracks_composed (.op o args) (.op o args') (composed_connective o _)
        (composed_connective o _) fun _ => tracks_connective o hls).bind fun _ _ l l' hl =>
          Follows.pure (V := Over Lowered.Corresponds) (.literal hl)
    have harithmetic := (tracks_forms hself hargs).bind fun _ _ _ _ hforms =>
      (tracks_arithmetic o args args' hforms).bind fun _ _ c c' hc =>
        Follows.pure (V := Over Lowered.Corresponds) (.ofAffine hc)
    cases o with
    | xor => exact .throw _
    | and => exact hconnective
    | or => exact hconnective
    | implies => exact hconnective
    | _ => exact harithmetic
  | compare c hl hr =>
    exact (tracks_formBy hself hl).bind fun u hu _ _ hleft =>
      (tracks_formBy hself (monotonic_areAlike hu hr)).bind fun u' hu' _ _ hright =>
        .pure (.relation ⟨hleft.mono hu'.1, rfl, hright⟩)
  | element ha hi =>
    exact (tracks_formBy hself hi).bind fun u hu _ _ hindex =>
      (tracks_forms hself (monotonic_areAlike.forall₂ hu ha)).bind fun u' hu' _ _ hitems =>
        tracks_selectItem _ _ (hindex.mono hu'.1) hitems
  | global hg =>
    have hconjunction := tracks_conjunctionBy hself limit hg
    cases hg with
    | plain kind hargs =>
      cases kind with
      | min =>
        exact (tracks_forms hself hargs).bind fun _ _ _ _ hforms => tracks_extremum .min _ _ hforms
      | max =>
        exact (tracks_forms hself hargs).bind fun _ _ _ _ hforms => tracks_extremum .max _ _ hforms
      | _ => exact hconjunction
    | count hargs hvalue =>
      refine hself w _ _ (alike_nary .sum ?_)
      rw [List.forall₂_map_left_iff, List.forall₂_map_right_iff]
      exact hargs.imp fun _ _ ha => .compare .eq ha hvalue
    | cardinality values hargs hcounts => exact hconjunction
    | named name hargs => exact hconjunction
    | defined name hargs hmembers hnew => exact hconjunction

end Calls

/-! ## The recursion -/

theorem tracks_unrolled (limit calls : Nat) :
    TracksCalls (unrolled limit exhausted calls) (unrolled limit exhausted calls) := by
  induction calls with
  | zero => exact fun _ _ _ _ => .throw _
  | succ calls ih => exact fun _ _ _ h => tracks_callLower ih h

theorem tracks_lowerExpr (config : Config) (h : AreAlike w e e') :
    Tracks w (Over Lowered.Corresponds) (lowerExpr config e) (lowerExpr config e') := by
  intro t t' v s hmatched hrun
  obtain ⟨n, hn⟩ := exists_calls_lower config t e
  obtain ⟨n', hn'⟩ := exists_calls_lower config t' e'
  have hcalls := tracks_unrolled config.maxDecompositionDepth (max n n') w e e' h
  rw [← hn _ (Nat.le_max_left n n') exhausted] at hrun
  rw [← hn' _ (Nat.le_max_right n n') exhausted]
  exact hcalls hmatched hrun

end Translate

end Linearization
