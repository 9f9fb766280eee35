import Linearization.Proofs.Translation.Recursion

/-!
# Translations end at the depth where they began

The recursion of lowering and imposing ends: for every expression and draft so many unrolled calls
are enough, whatever is below them, and they do what lowering and imposing do
(`terminates_at_depth`). The measure is the number of levels that the depth of the draft leaves
below the limit, and within a level the structure of the expression. That the levels get fewer relies on
every step leaving the depth as it was, also when it fails; so both are proved in one induction
(`Settles`).
-/

namespace Linearization

namespace Draft

/-- The depth is the one before, and the deepest level has only gone up, at most to the limit. -/
structure KeepsDepth (limit : Nat) (t t' : Draft) : Prop where
  depth : t'.depth = t.depth
  deepest_ge : t.deepest ≤ t'.deepest
  deepest_le : t'.deepest ≤ max t.deepest limit

namespace KeepsDepth

variable {limit : Nat} {t t' t'' : Draft}

theorem of_eq (hdepth : t'.depth = t.depth) (hdeepest : t'.deepest = t.deepest) :
    t.KeepsDepth limit t' :=
  ⟨hdepth, Nat.le_of_eq hdeepest.symm, hdeepest ▸ Nat.le_max_left _ _⟩

theorem trans (h : t.KeepsDepth limit t') (h' : t'.KeepsDepth limit t'') :
    t.KeepsDepth limit t'' where
  depth := h'.depth.trans h.depth
  deepest_ge := h.deepest_ge.trans h'.deepest_ge
  deepest_le := h'.deepest_le.trans (Nat.max_le.2 ⟨h.deepest_le, Nat.le_max_right _ _⟩)

instance : Std.Refl (KeepsDepth limit) := ⟨fun _ => .of_eq rfl rfl⟩

instance : Trans (KeepsDepth limit) (KeepsDepth limit) (KeepsDepth limit) := ⟨trans⟩

end KeepsDepth

end Draft

namespace Translate

open Draft

variable {α β : Type} {limit depth : Nat} {t : Draft} {e value : Expr} {es : List Expr} {g : Global}
  {deeper : Option Deeper} {level : Deeper}

/-! ## Steps at one depth -/

theorem keepsDepth_build (e : Expr) (action : Lowering α) :
    Keeps (KeepsDepth limit) (build e action) := by
  intro t
  unfold KeepsAt stateAfter build
  cases action t.program with
  | ok a q => exact .of_eq rfl rfl
  | error error q => exact .of_eq rfl rfl

theorem keepsDepth_imageOf (v : Var) : Keeps (KeepsDepth limit) (imageOf v) := by
  refine Keeps.get.bind fun t => ?_
  cases t.layout.get? v with
  | some image => exact .pure image
  | none => exact .throw _

theorem keepsDepth_registerAll (vs : List Var) : Keeps (KeepsDepth limit) (registerAll vs) := by
  intro t
  unfold KeepsAt
  rw [stateAfter_of_ok (registerAll_run vs t)]
  induction vs generalizing t with
  | nil => exact .of_eq rfl rfl
  | cons v vs ih =>
    have hvar : t.KeepsDepth limit (t.withVar v) := by
      unfold withVar
      split <;> exact .of_eq rfl rfl
    exact hvar.trans (ih (t.withVar v))

theorem keepsDepth_members (g : Global) : Keeps (KeepsDepth limit) (members g) := by
  refine Keeps.get.bind fun t => ?_
  cases g.decompose t.program.columns.size with
  | none => exact .throw _
  | some d =>
    have hlog : Keeps (KeepsDepth limit) (modify (·.logged g) : Translate PUnit) :=
      fun _ => .of_eq rfl rfl
    exact (keepsDepth_registerAll _).bind fun _ => hlog.bind fun _ => .pure _

/-- The step is composed of lookups, of lowerings and of checks that may refuse: it neither expands a
global nor lowers or imposes another expression. -/
inductive CallFree : {α : Type} → Translate α → Prop where
  | pure {α : Type} (a : α) : CallFree (Pure.pure a)
  | throw {α : Type} (error : TranslationError) : CallFree (MonadExcept.throw error : Translate α)
  | bind {α β : Type} {m : Translate α} {f : α → Translate β} (hm : CallFree m)
    (hf : ∀ a, CallFree (f a)) : CallFree (m >>= f)
  | build {α : Type} (e : Expr) (action : Lowering α) : CallFree (Translate.build e action)
  | imageOf (v : Var) : CallFree (Translate.imageOf v)

theorem callFree_checkArity (o : Operator) (args : List Expr) : CallFree (checkArity o args) := by
  unfold checkArity
  split
  · split
    · exact .pure _
    · exact .throw _
  · exact .pure _

theorem callFree_arithmetic (o : Operator) (args : List Expr) (forms : List Affine) :
    CallFree (arithmetic o args forms) := by
  unfold arithmetic
  dsimp only
  split
  case h_7 =>
    split
    · exact .build _ _
    · exact .throw _
  case h_9 => exact .throw _
  all_goals exact .build _ _

theorem callFree_selectItem (e : Expr) (index : Affine) (items : List Affine) :
    CallFree (selectItem e index items) := by
  unfold selectItem
  split
  · split
    · exact .pure _
    · exact .throw _
  · refine (CallFree.build e _).bind fun hull => ?_
    cases hull with
    | none => exact .throw _
    | some bounds =>
      refine (CallFree.build e _).bind fun range => ?_
      dsimp only
      split
      · exact .throw _
      · exact (CallFree.build e _).bind fun _ => (CallFree.build e _).bind fun _ => .pure _

theorem callFree_extremum (kind : GlobalKind) (args : List Expr) (forms : List Affine) :
    CallFree (extremum kind args forms) := by
  refine (CallFree.build _ _).bind fun hull => ?_
  cases hull with
  | none => exact .throw _
  | some bounds =>
    refine (CallFree.build _ _).bind fun target => ?_
    dsimp only
    split
    · exact (CallFree.build _ _).bind fun _ => .pure _
    · exact (CallFree.build _ _).bind fun _ => .pure _

theorem callFree_imposePairs (e : Expr) (c : Comparison) (guards : List Literal)
    (pairs : List (Lowered × Lowered)) : CallFree (imposePairs e c guards pairs) := by
  induction pairs with
  | nil => exact .pure _
  | cons pair rest ih =>
    exact (CallFree.build e _).bind fun _ => (CallFree.build e _).bind fun _ =>
      (CallFree.build e _).bind fun _ => ih

theorem CallFree.keepsDepth {m : Translate α} (h : CallFree m) : Keeps (KeepsDepth limit) m := by
  induction h with
  | pure a => exact .pure a
  | throw error => exact .throw error
  | bind _ _ ihm ihf => exact ihm.bind ihf
  | build e action => exact keepsDepth_build e action
  | imageOf v => exact keepsDepth_imageOf v

/-- The level that is entered is left again, also after a failure. -/
theorem stateAfter_nested (m : Translate α) (t : Draft) :
    stateAfter (nested m) t =
      let below := stateAfter m
        { t with depth := t.depth + 1, deepest := max t.deepest (t.depth + 1) }
      { below with depth := below.depth - 1 } := by
  unfold stateAfter nested
  dsimp only
  cases m { t with depth := t.depth + 1, deepest := max t.deepest (t.depth + 1) } <;> rfl

theorem keepsDepth_nested {m : Translate α} (ht : t.depth < limit)
    (hm : KeepsAt (KeepsDepth limit) m
      { t with depth := t.depth + 1, deepest := max t.deepest (t.depth + 1) }) :
    KeepsAt (KeepsDepth limit) (nested m) t := by
  unfold KeepsAt at hm ⊢
  rw [stateAfter_nested]
  obtain ⟨hdepth, hge, hle⟩ := hm
  dsimp only at hdepth hge hle ⊢
  exact ⟨by dsimp only; omega, by dsimp only; omega, by dsimp only; omega⟩

/-! ## Settling -/

/-- In every draft at the depth, the step keeps the depth, and so many unrolled calls are enough for
what it does, whatever is below them. -/
def Settles (limit depth : Nat) (f : Nat → Deeper → Translate α) (m : Translate α) : Prop :=
  ∀ t : Draft, t.depth = depth →
    (∃ n, ∀ calls ≥ n, ∀ bottom, f calls bottom t = m t) ∧ KeepsAt (KeepsDepth limit) m t

namespace Settles

variable {f : Nat → Deeper → Translate α} {m : Translate α}

theorem of_keeps (hm : Keeps (KeepsDepth limit) m) : Settles limit depth (fun _ _ => m) m :=
  fun t _ => ⟨⟨0, fun _ _ _ => rfl⟩, hm t⟩

theorem pure (a : α) : Settles limit depth (fun _ _ => Pure.pure a) (Pure.pure a) :=
  of_keeps (.pure a)

theorem throw (error : TranslationError) :
    Settles limit depth (fun _ _ => MonadExcept.throw error)
      (MonadExcept.throw error : Translate α) := of_keeps (.throw error)

theorem build (e : Expr) (action : Lowering α) :
    Settles limit depth (fun _ _ => Translate.build e action) (Translate.build e action) :=
  of_keeps (keepsDepth_build e action)

theorem bind {g : α → Nat → Deeper → Translate β} {m' : α → Translate β}
    (h : Settles limit depth f m) (h' : ∀ a, Settles limit depth (g a) (m' a)) :
    Settles limit depth (fun calls bottom => f calls bottom >>= fun a => g a calls bottom)
      (m >>= m') := by
  intro t ht
  obtain ⟨⟨n, hn⟩, hkeeps⟩ := h t ht
  cases hrun : m t with
  | error error t' =>
    refine ⟨⟨n, fun calls hcalls bottom => ?_⟩, hkeeps.bind fun a t' hok => ?_⟩
    · have hfirst := (hn calls hcalls bottom).trans hrun
      exact (bind_of_error hfirst).trans (bind_of_error hrun).symm
    · rw [hrun] at hok
      cases hok
  | ok a t' =>
    have hdepth : t'.depth = depth := by
      have hkept : t.KeepsDepth limit (stateAfter m t) := hkeeps
      rw [stateAfter_of_ok hrun] at hkept
      exact hkept.depth.trans ht
    obtain ⟨⟨n', hn'⟩, hkeeps'⟩ := h' a t' hdepth
    refine ⟨⟨max n n', fun calls hcalls bottom => ?_⟩, hkeeps.bind fun b s hok => ?_⟩
    · have hfirst := (hn calls (le_of_max_le_left hcalls) bottom).trans hrun
      exact ((bind_of_ok hfirst).trans (hn' calls (le_of_max_le_right hcalls) bottom)).trans
        (bind_of_ok hrun).symm
    · rw [hrun] at hok
      cases hok
      exact hkeeps'

theorem map (h : Settles limit depth f m) (k : α → β) :
    Settles limit depth (fun calls bottom => k <$> f calls bottom) (k <$> m) := by
  simp only [map_eq_pure_bind]
  exact h.bind fun a => .pure (k a)

theorem mapM {f : Nat → Deeper → α → Translate β} {m : α → Translate β} {as : List α}
    (h : ∀ a ∈ as, Settles limit depth (fun calls bottom => f calls bottom a) (m a)) :
    Settles limit depth (fun calls bottom => as.mapM (f calls bottom)) (as.mapM m) := by
  induction as with
  | nil => exact .pure []
  | cons a as ih =>
    rw [List.forall_mem_cons] at h
    simp only [List.mapM_cons]
    exact h.1.bind fun b => (ih h.2).bind fun bs => .pure (b :: bs)

theorem forM {f : Nat → Deeper → α → Translate PUnit} {m : α → Translate PUnit} {as : List α}
    (h : ∀ a ∈ as, Settles limit depth (fun calls bottom => f calls bottom a) (m a)) :
    Settles limit depth (fun calls bottom => as.forM (f calls bottom)) (as.forM m) := by
  induction as with
  | nil => exact .pure _
  | cons a as ih =>
    rw [List.forall_mem_cons] at h
    simp only [List.forM_eq_forM, List.forM_cons]
    exact h.1.bind fun _ => ih h.2

theorem nested (hdepth : depth < limit) (h : Settles limit (depth + 1) f m) :
    Settles limit depth (fun calls bottom => Translate.nested (f calls bottom))
      (Translate.nested m) := by
  intro t ht
  obtain ⟨⟨n, hn⟩, hkeeps⟩ :=
    h { t with depth := t.depth + 1, deepest := max t.deepest (t.depth + 1) }
      (congrArg (· + 1) ht)
  refine ⟨⟨n, fun calls hcalls bottom => ?_⟩, keepsDepth_nested (ht ▸ hdepth) hkeeps⟩
  unfold Translate.nested
  dsimp only
  rw [hn calls hcalls bottom]

theorem of_succ (h : Settles limit depth (fun calls bottom => f (calls + 1) bottom) m) :
    Settles limit depth f m := by
  intro t ht
  obtain ⟨⟨n, hn⟩, hkeeps⟩ := h t ht
  refine ⟨⟨n + 1, fun calls hcalls bottom => ?_⟩, hkeeps⟩
  obtain ⟨calls, rfl⟩ := Nat.exists_eq_succ_of_ne_zero (Nat.ne_zero_of_lt hcalls)
  exact hn calls (Nat.le_of_succ_le_succ hcalls) bottom

end Settles

/-- The step for the members settles one level deeper. -/
theorem settles_decomposed {f : Nat → Deeper → List Expr → Translate α}
    {m : List Expr → Translate α} (hdepth : depth < limit)
    (h : ∀ cs, Settles limit (depth + 1) (fun calls bottom => f calls bottom cs) (m cs)) :
    Settles limit depth (fun calls bottom => decomposed limit g (f calls bottom))
      (members g >>= fun cs => nested (m cs)) := by
  have hsettles : Settles limit depth
      (fun calls bottom => members g >>= fun cs => nested (f calls bottom cs))
      (members g >>= fun cs => nested (m cs)) :=
    (Settles.of_keeps (keepsDepth_members g)).bind fun cs => (h cs).nested hdepth
  intro t ht
  obtain ⟨⟨n, hn⟩, hkeeps⟩ := hsettles t ht
  refine ⟨⟨n, fun calls hcalls bottom => ?_⟩, hkeeps⟩
  refine Eq.trans ?_ (hn calls hcalls bottom)
  refine (bind_of_ok (rfl : (get : Translate Draft) t = .ok t t)).trans ?_
  rw [if_neg (by omega)]

theorem settles_decomposed_of_le {f : Nat → Deeper → List Expr → Translate α}
    (hdepth : limit ≤ depth) :
    Settles limit depth (fun calls bottom => decomposed limit g (f calls bottom))
      (throw (.decompositionDepth (.global g) limit)) := by
  intro t ht
  refine ⟨⟨0, fun calls _ bottom => ?_⟩, Keeps.throw _ t⟩
  refine (bind_of_ok (rfl : (get : Translate Draft) t = .ok t t)).trans ?_
  rw [if_pos (ht ▸ hdepth)]

/-! ## Values -/

/-- Lowering with so many calls unrolled settles. -/
abbrev Lowers (limit depth : Nat) (e : Expr) (m : Translate Lowered) : Prop :=
  Settles limit depth (fun calls bottom => (unrolled limit bottom calls).lower e) m

/-- Imposing with so many calls unrolled settles. -/
abbrev Imposes (limit depth : Nat) (e : Expr) (guards : List Literal) (m : Translate Unit) : Prop :=
  Settles limit depth (fun calls bottom => (unrolled limit bottom calls).impose e guards) m

/-- Both settle for every expression. -/
structure SettlesLevel (limit depth : Nat) (level : Deeper) : Prop where
  lower : ∀ e, Lowers limit depth e (level.lower e)
  impose : ∀ e guards, Imposes limit depth e guards (level.impose e guards)

/-- There is a deeper level exactly below the limit, and everything settles there. -/
def SettlesBelow (limit depth : Nat) : Option Deeper → Prop
  | none => limit ≤ depth
  | some level => depth < limit ∧ SettlesLevel limit (depth + 1) level

theorem equalities_eq (value : Expr) (es : List Expr) :
    equalities limit deeper value (lower limit deeper value) es =
      affines limit deeper (es.map fun e => e.equals value) := by
  induction es with
  | nil => rfl
  | cons e es ih => simp [equalities, affines, lower, Expr.equals, ih]

theorem expand_bind (level : Deeper) (g : Global) (f : Deeper × List Expr → Translate α) :
    expand limit (some level) g >>= f = members g >>= fun cs => f (level, cs) := by
  unfold expand members
  simp only [bind_assoc]
  refine congrArg _ (funext fun t => ?_)
  cases g.decompose t.program.columns.size with
  | none => rfl
  | some d => simp

theorem settles_formBy (h : Lowers limit depth e (lower limit deeper e)) :
    Settles limit depth (fun calls bottom => formBy (unrolled limit bottom calls).lower e)
      (affine limit deeper e) := h.bind fun _ => .build e _

theorem settles_literalBy {m : Translate Lowered} (h : Lowers limit depth e m) :
    Settles limit depth (fun calls bottom => literalBy (unrolled limit bottom calls).lower e)
      (do build e (Lowering.literalOf (← m))) := h.bind fun _ => .build e _

theorem settles_forms (h : ∀ e ∈ es, Lowers limit depth e (lower limit deeper e)) :
    Settles limit depth
      (fun calls bottom => es.mapM (formBy (unrolled limit bottom calls).lower))
      (affines limit deeper es) := by
  rw [affines_eq_mapM]
  exact .mapM fun e he => settles_formBy (h e he)

theorem settles_literals (h : ∀ e ∈ es, Lowers limit depth e (lower limit deeper e)) :
    Settles limit depth
      (fun calls bottom => es.mapM (literalBy (unrolled limit bottom calls).lower))
      (literals limit deeper es) := by
  rw [literals_eq_mapM]
  exact .mapM fun e he => settles_literalBy (h e he)

theorem lowers_op (o : Operator) (h : ∀ e ∈ es, Lowers limit depth e (lower limit deeper e)) :
    Lowers limit depth (.op o es) (lower limit deeper (.op o es)) := by
  refine .of_succ ?_
  have harity : Settles limit depth (fun _ _ => checkArity o es) (checkArity o es) :=
    .of_keeps (callFree_checkArity o es).keepsDepth
  have hliterals := settles_literals h
  have hforms := settles_forms h
  rcases o.eq_xor_or with rfl | hconnective | harithmetic
  · exact harity.bind fun _ => .throw _
  · rw [lower_connective hconnective]
    rcases hconnective with rfl | rfl | rfl <;>
      exact harity.bind fun _ => hliterals.bind fun ls => (Settles.build _ _).bind fun l => .pure _
  · rw [lower_arithmetic harithmetic]
    have harith : ∀ forms, Settles limit depth (fun _ _ => arithmetic o es forms)
        (arithmetic o es forms) := fun forms => .of_keeps (callFree_arithmetic o es forms).keepsDepth
    rcases harithmetic with rfl | rfl | rfl | rfl | rfl | rfl | rfl | rfl <;>
      exact harity.bind fun _ => hforms.bind fun forms => (harith forms).bind fun form => .pure _

theorem lowers_compare {c : Comparison} {lhs rhs : Expr}
    (hl : Lowers limit depth lhs (lower limit deeper lhs))
    (hr : Lowers limit depth rhs (lower limit deeper rhs)) :
    Lowers limit depth (.compare c lhs rhs) (lower limit deeper (.compare c lhs rhs)) := by
  refine .of_succ ?_
  have heq : lower limit deeper (.compare c lhs rhs) = (do
      let l ← affine limit deeper lhs
      let r ← affine limit deeper rhs
      return .relation ⟨l, c, r⟩) := by simp [lower, affine]
  rw [heq]
  exact (settles_formBy hl).bind fun l => (settles_formBy hr).bind fun r => .pure _

/-- A count is the sum of the equalities. -/
theorem lowerGlobal_count (value : Expr) (es : List Expr) :
    lowerGlobal limit deeper (.count es value) =
      lower limit deeper (.op .sum (es.map fun e => e.equals value)) := by
  rw [lower_arithmetic (by simp [Operator.IsArithmetic]), ← equalities_eq, lowerGlobal]
  simp [checkArity, Operator.arity, arithmetic, sum_equals]

section Levels

variable (hdeeper : SettlesBelow limit depth deeper)

include hdeeper

theorem settles_expand {f : Nat → Deeper → List Expr → Translate α}
    {m : Deeper × List Expr → Translate α}
    (h : ∀ level cs, SettlesLevel limit (depth + 1) level →
      Settles limit (depth + 1) (fun calls bottom => f calls bottom cs) (m (level, cs))) :
    Settles limit depth (fun calls bottom => decomposed limit g (f calls bottom))
      (expand limit deeper g >>= fun found => nested (m found)) := by
  cases deeper with
  | none => exact settles_decomposed_of_le hdeeper
  | some level =>
    rw [expand_bind]
    exact settles_decomposed hdeeper.1 fun cs => h level cs hdeeper.2

theorem settles_reifyGlobal (g : Global) :
    Settles limit depth (fun calls bottom => Lowered.literal <$> decomposed limit g fun cs =>
      literalBy (unrolled limit bottom calls).lower (.all cs))
      (reifyGlobal limit deeper g) := by
  have heq : reifyGlobal limit deeper g = Lowered.literal <$> (expand limit deeper g >>=
      fun found => nested do
        build (.all found.2) (Lowering.literalOf (← found.1.lower (.all found.2)))) := by
    simp [reifyGlobal]
  rw [heq]
  exact (settles_expand hdeeper fun level cs hlevel =>
    settles_literalBy (hlevel.lower (.all cs))).map _

theorem lowers_global (hargs : ∀ e ∈ g.args, Lowers limit depth e (lower limit deeper e)) :
    Lowers limit depth (.global g) (lower limit deeper (.global g)) := by
  refine .of_succ ?_
  cases g with
  | plain kind args =>
    have hextremum : ∀ kind forms, Settles limit depth (fun _ _ => extremum kind args forms)
        (extremum kind args forms) := fun kind forms =>
      .of_keeps (callFree_extremum kind args forms).keepsDepth
    cases kind with
    | min => exact (settles_forms hargs).bind (hextremum .min)
    | max => exact (settles_forms hargs).bind (hextremum .max)
    | _ => exact settles_reifyGlobal hdeeper _
  | count args value =>
    rw [lower, lowerGlobal_count, ← sum_equals]
    show Lowers limit depth (.sum _) _
    rw [sum_equals]
    refine lowers_op .sum fun e he => ?_
    obtain ⟨arg, harg, rfl⟩ := List.mem_map.1 he
    exact lowers_compare (hargs arg (List.mem_append_left _ harg))
      (hargs value (List.mem_append_right _ (List.mem_singleton_self value)))
  | cardinality args values counts => exact settles_reifyGlobal hdeeper _
  | named name args => exact settles_reifyGlobal hdeeper _
  | defined name args constraints newVars => exact settles_reifyGlobal hdeeper _

theorem lowers_lower (e : Expr) : Lowers limit depth e (lower limit deeper e) := by
  induction e using Expr.induction with
  | const c => exact .of_succ (.pure _)
  | var v => exact .of_succ ((Settles.of_keeps (keepsDepth_imageOf v)).bind fun _ => .pure _)
  | complement v =>
    refine .of_succ ((Settles.of_keeps (keepsDepth_imageOf v)).bind fun image => ?_)
    cases image with
    | bool l => exact .pure _
    | int i => exact .throw _
  | list items ih =>
    refine .of_succ ?_
    rw [lower, lowerAll_eq_mapM]
    exact (Settles.mapM ih).bind fun _ => .pure _
  | op o args ih => exact lowers_op o ih
  | compare c lhs rhs ihl ihr => exact lowers_compare ihl ihr
  | element array index iha ihi =>
    have heq : lower limit deeper (.element array index) = (do
        let i ← affine limit deeper index
        let items ← affines limit deeper array
        selectItem (.element array index) i items) := by simp [lower, affine]
    refine .of_succ ?_
    rw [heq]
    exact (settles_formBy ihi).bind fun i => (settles_forms iha).bind fun items =>
      .of_keeps (callFree_selectItem (.element array index) i items).keepsDepth
  | global g iha _ => exact lowers_global hdeeper iha

/-! ## Constraints -/

theorem settles_imposeLiteral (e : Expr) (guards : List Literal) :
    Settles limit depth
      (fun calls bottom => Deeper.callImposeLiteral (unrolled limit bottom calls) e guards)
      (imposeLiteral limit deeper e guards) :=
  (settles_literalBy (lowers_lower hdeeper e)).bind fun _ => .build e _

omit hdeeper in
theorem imposeComparison_eq (c : Comparison) (lhs rhs : Expr) (guards : List Literal) :
    imposeComparison limit deeper c lhs rhs guards =
      match itemEquality? c lhs rhs with
      | some (array, index, other) =>
        imposeElement limit deeper (.compare c lhs rhs) array index other guards
      | none => imposeItemwise limit deeper c lhs rhs guards := by
  unfold imposeComparison
  split
  · rfl
  · rename_i hne
    rw [itemEquality?]
    exact hne
  · rename_i hleft hright
    rw [itemEquality?]
    · exact hleft
    · exact hright

theorem settles_imposeComparison (c : Comparison) (lhs rhs : Expr) (guards : List Literal) :
    Settles limit depth (fun calls bottom =>
      Deeper.callImposeComparison (unrolled limit bottom calls) c lhs rhs guards)
      (imposeComparison limit deeper c lhs rhs guards) := by
  rw [imposeComparison_eq]
  unfold Deeper.callImposeComparison
  cases itemEquality? c lhs rhs with
  | some found =>
    obtain ⟨array, index, other⟩ := found
    exact (settles_formBy (lowers_lower hdeeper index)).bind fun i =>
      (settles_forms fun e _ => lowers_lower hdeeper e).bind fun items =>
        (settles_formBy (lowers_lower hdeeper other)).bind fun target => .build _ _
  | none =>
    refine (lowers_lower hdeeper lhs).bind fun left => ?_
    refine (lowers_lower hdeeper rhs).bind fun right => ?_
    cases left.pairUp right with
    | some pairs => exact .of_keeps (callFree_imposePairs _ c guards pairs).keepsDepth
    | none => exact .throw _

theorem settles_imposeGlobal (g : Global) (guards : List Literal) :
    Settles limit depth
      (fun calls bottom => Deeper.callImposeGlobal limit (unrolled limit bottom calls) g guards)
      (imposeGlobal limit deeper g guards) := by
  have hvalue : Settles limit depth
      (fun calls bottom => discard ((unrolled limit bottom calls).lower (.global g)))
      (discard (lowerGlobal limit deeper g)) := (lowers_lower hdeeper (.global g)).map _
  have hmembers : Settles limit depth
      (fun calls bottom => decomposed limit g fun cs =>
        cs.forM fun c => (unrolled limit bottom calls).impose c guards)
      (imposeDecomposition limit deeper g guards) :=
    settles_expand hdeeper fun level cs hlevel => .forM fun c _ => hlevel.impose c guards
  cases g with
  | plain kind args =>
    cases kind with
    | allDifferent =>
      exact (settles_forms fun e _ => lowers_lower hdeeper e).bind fun forms => .build _ _
    | min => exact hvalue
    | max => exact hvalue
    | _ => exact hmembers
  | count args value => exact hvalue
  | cardinality args values counts => exact hmembers
  | named name args => exact hmembers
  | defined name args constraints newVars => exact hmembers

theorem imposes_impose (e : Expr) (guards : List Literal) :
    Imposes limit depth e guards (impose limit deeper e guards) := by
  have hliteral : ∀ a, Settles limit depth
      (fun calls bottom => literalBy (unrolled limit bottom calls).lower a)
      (literal limit deeper a) := fun a => settles_literalBy (lowers_lower hdeeper a)
  have hliterals : ∀ es : List Expr, Settles limit depth
      (fun calls bottom => es.mapM (literalBy (unrolled limit bottom calls).lower))
      (literals limit deeper es) := fun es => settles_literals fun e _ => lowers_lower hdeeper e
  have hall : ∀ (es : List Expr), (∀ e ∈ es, ∀ guards,
      Imposes limit depth e guards (impose limit deeper e guards)) → ∀ guards, Settles limit depth
        (fun calls bottom => es.forM fun e => (unrolled limit bottom calls).impose e guards)
        (imposeAll limit deeper es guards) := fun es ih guards => by
    rw [imposeAll_eq_forM]
    exact .forM fun e he => ih e he guards
  induction e using Expr.induction generalizing guards with
  | const c =>
    refine .of_succ ?_
    show Settles limit depth (fun _ _ => if c = 0 then _ else _) (if c = 0 then _ else _)
    split
    · exact .build _ _
    · exact .pure _
  | var v => exact .of_succ (settles_imposeLiteral hdeeper (.var v) guards)
  | complement v => exact .of_succ (settles_imposeLiteral hdeeper (.complement v) guards)
  | list items ih => exact .of_succ (hall items ih guards)
  | op o args ih =>
    refine .of_succ ?_
    have hself := settles_imposeLiteral hdeeper (.op o args) guards
    cases o with
    | and => exact hall args ih guards
    | or => exact (hliterals args).bind fun ls => .build _ _
    | xor => exact (hliterals args).bind fun ls => .build _ _
    | implies =>
      rcases args with _ | ⟨a, _ | ⟨b, _ | ⟨c, rest⟩⟩⟩
      · exact hself
      · exact hself
      · rw [List.forall_mem_cons, List.forall_mem_singleton] at ih
        show Settles limit depth
          (fun _ _ => if guards.isEmpty ∧ a.asBoolLiteral.isSome ∧ b.asBoolLiteral.isSome then _
            else _)
          (if guards.isEmpty ∧ a.asBoolLiteral.isSome ∧ b.asBoolLiteral.isSome then _ else _)
        split
        · exact (hliteral a).bind fun l => (hliteral b).bind fun k => .build _ _
        · exact (hliteral a).bind fun l => ih.2 (guards ++ [l])
      · exact hself
    | _ => exact hself
  | compare c lhs rhs _ _ => exact .of_succ (settles_imposeComparison hdeeper c lhs rhs guards)
  | element array index _ _ =>
    exact .of_succ (settles_imposeLiteral hdeeper (.element array index) guards)
  | global g _ _ => exact .of_succ (settles_imposeGlobal hdeeper g guards)

end Levels

theorem settlesLevel_within (limit levels : Nat) : ∀ depth, limit - depth = levels →
    SettlesLevel limit depth ⟨lowerWithin limit levels, imposeWithin limit levels⟩ := by
  induction levels with
  | zero =>
    intro depth hdepth
    have hnone : SettlesBelow limit depth none := Nat.le_of_sub_eq_zero hdepth
    exact ⟨lowers_lower hnone, imposes_impose hnone⟩
  | succ levels ih =>
    intro depth hdepth
    have hsome : SettlesBelow limit depth
        (some ⟨lowerWithin limit levels, imposeWithin limit levels⟩) :=
      ⟨by omega, ih (depth + 1) (by omega)⟩
    exact ⟨lowers_lower hsome, imposes_impose hsome⟩

/-- So many unrolled calls lower the expression. -/
theorem exists_calls_lower (config : Config) (t : Draft) (e : Expr) :
    ∃ n, ∀ calls ≥ n, ∀ bottom,
      (unrolled config.maxDecompositionDepth bottom calls).lower e t = lowerExpr config e t :=
  ((settlesLevel_within config.maxDecompositionDepth _ t.depth rfl).lower e t rfl).1

theorem exists_calls_impose (config : Config) (t : Draft) (e : Expr) (guards : List Literal) :
    ∃ n, ∀ calls ≥ n, ∀ bottom, (unrolled config.maxDecompositionDepth bottom calls).impose e guards
      t = imposeExpr config e guards t :=
  ((settlesLevel_within config.maxDecompositionDepth _ t.depth rfl).impose e guards t rfl).1

/-- Lowering and imposing end, for every expression and in every draft: so many unrolled calls are
enough, whatever is below them. They leave the depth as it was, also when they fail, and they never
get deeper than the limit, unless the draft was so before. -/
theorem terminates_at_depth (config : Config) (t : Draft) :
    (∀ e, (∃ n, ∀ calls ≥ n, ∀ bottom,
        (unrolled config.maxDecompositionDepth bottom calls).lower e t = lowerExpr config e t) ∧
      t.KeepsDepth config.maxDecompositionDepth (stateAfter (lowerExpr config e) t)) ∧
    ∀ e guards, (∃ n, ∀ calls ≥ n, ∀ bottom,
        (unrolled config.maxDecompositionDepth bottom calls).impose e guards t =
          imposeExpr config e guards t) ∧
      t.KeepsDepth config.maxDecompositionDepth (stateAfter (imposeExpr config e guards) t) := by
  obtain ⟨hlower, himpose⟩ :=
    settlesLevel_within config.maxDecompositionDepth _ t.depth rfl
  exact ⟨fun e => hlower e t rfl, fun e guards => himpose e guards t rfl⟩

/-- The inner decomposition is refused, and the level of the outer one is left. -/
example :
    let inner : Expr := .global (.defined "inner" [] [.compare .le (.const 0) (.const 1)] [])
    let outer : Expr := .global (.defined "outer" [] [inner] [])
    let t := stateAfter (imposeExpr { maxDecompositionDepth := 1 } outer []) (.start 4096)
    (t.depth, t.deepest, t.decomposed.length) = (0, 1, 1) := by decide +kernel

end Translate

end Linearization
