import Linearization.Proofs.Expr.Rename
import Linearization.Proofs.Ilp.Structure
import Linearization.Proofs.Translation.Safety
import Linearization.Proofs.Translation.Termination

/-!
# Translations in parallel

Lowering an expression and lowering one that differs from it in labels, each under a limit of its
own, go through the same steps: both look up corresponding variables, extend their programs by the
same lowerings, decompose corresponding globals and refuse for the same reasons.
`Parallel F limit limit' m m'` says so of two steps `m` and `m'` of a translation, with one
constructor for every elementary step; one walk over a single call of the recursion shows it for
lowering and imposing (`parallel_unrolled`).

What every elementary step does, and what passes to sequences, then holds of all translations by one
induction, of one of them alone (`Elementary.keeps`) or of both together.
-/

namespace Linearization

/-- The two failures refuse corresponding expressions for the same reason, or are about the same
numbers. -/
inductive Relabeling.Refuses (F : Relabeling) : TranslationError → TranslationError → Prop where
  | untranslatable (e : Expr) {reason : Reason}
    (h : ∀ exponent, reason ≠ .variableExponent exponent) :
    F.Refuses (.untranslatable e reason) (.untranslatable (F.expr e) reason)
  | variableExponent (e exponent : Expr) :
    F.Refuses (.untranslatable e (.variableExponent exponent))
      (.untranslatable (F.expr e) (.variableExponent (F.expr exponent)))
  | shapeMismatch (left right : Nat) :
    F.Refuses (.shapeMismatch left right) (.shapeMismatch left right)
  | fault (cause : Fault) : F.Refuses (.fault cause) (.fault cause)

namespace Translate

open Lowering

/-- The two steps are composed of the same elementary steps, the second one for expressions with
other labels and under another limit. -/
inductive Parallel (F : Relabeling) (limit limit' : Nat) :
    {α : Type} → Translate α → Translate α → Prop where
  | pure {α : Type} (a : α) : Parallel F limit limit' (Pure.pure a) (Pure.pure a)
  | throw {α : Type} {error error' : TranslationError} (h : F.Refuses error error') :
    Parallel F limit limit' (MonadExcept.throw error : Translate α) (MonadExcept.throw error')
  /-- The rest only matters for what the first part can return. -/
  | bind {α β : Type} {m m' : Translate α} {f f' : α → Translate β}
    (hm : Parallel F limit limit' m m')
    (hf : ∀ a, (∃ t t', m t = .ok a t') → Parallel F limit limit' (f a) (f' a)) :
    Parallel F limit limit' (m >>= f) (m' >>= f')
  | build {α : Type} (e : Expr) {action : Lowering α} (h : Lowering.Composed action) :
    Parallel F limit limit' (Translate.build e action) (Translate.build (F.expr e) action)
  | imageOf (v : Var) :
    Parallel F limit limit' (Translate.imageOf v) (Translate.imageOf (F.var v))
  | decomposed {α : Type} (g : Global) {f f' : List Expr → Translate α}
    (hf : ∀ cs, Parallel F limit limit' (f cs) (f' (cs.map F.expr))) :
    Parallel F limit limit' (Translate.decomposed limit g f)
      (Translate.decomposed limit' (F.global g) f')

variable {F : Relabeling} {α β : Type} {limit limit' : Nat} {self self' : Deeper}

namespace Parallel

theorem map {m m' : Translate α} (h : Parallel F limit limit' m m') (f : α → β) :
    Parallel F limit limit' (f <$> m) (f <$> m') := by
  rw [map_eq_pure_bind, map_eq_pure_bind]
  exact h.bind fun a _ => .pure (f a)

theorem mapM {f f' : Expr → Translate β}
    (h : ∀ e, Parallel F limit limit' (f e) (f' (F.expr e))) (es : List Expr) :
    Parallel F limit limit' (es.mapM f) ((es.map F.expr).mapM f') := by
  induction es with
  | nil => exact .pure []
  | cons e es ih =>
    rw [List.map_cons, List.mapM_cons, List.mapM_cons]
    exact (h e).bind fun b _ => ih.bind fun bs _ => .pure (b :: bs)

theorem forM {f f' : Expr → Translate PUnit}
    (h : ∀ e, Parallel F limit limit' (f e) (f' (F.expr e))) (es : List Expr) :
    Parallel F limit limit' (es.forM f) ((es.map F.expr).forM f') := by
  induction es with
  | nil => exact .pure _
  | cons e es ih =>
    rw [List.forM_eq_forM] at ih ⊢
    rw [List.map_cons, List.forM_cons, List.forM_cons]
    exact (h e).bind fun _ _ => ih

/-- A refusal for a reason in which no expression stands. -/
theorem refuse (e : Expr) {reason : Reason} (h : ∀ exponent, reason ≠ .variableExponent exponent) :
    Parallel F limit limit' (MonadExcept.throw (.untranslatable e reason) : Translate α)
      (MonadExcept.throw (.untranslatable (F.expr e) reason)) :=
  .throw (.untranslatable e h)

end Parallel

/-! ## Steps without calls -/

theorem parallel_checkArity (o : Operator) (args : List Expr) :
    Parallel F limit limit' (checkArity o args) (checkArity o (args.map F.expr)) := by
  unfold checkArity
  cases o.arity with
  | none => exact .pure _
  | some expected =>
    dsimp only
    rw [List.length_map, ← F.expr_op]
    split
    · exact .pure _
    · exact .refuse (.op o args) nofun

theorem composed_connective (o : Operator) (ls : List Literal) : Composed (connective o ls) := by
  unfold connective
  split
  · exact composed_conjunction ls
  · exact composed_disjunction ls
  · exact composed_disjunction _
  · exact .throw _

theorem parallel_arithmetic (o : Operator) (args : List Expr) (forms : List Affine) :
    Parallel F limit limit' (arithmetic o args forms) (arithmetic o (args.map F.expr) forms) := by
  have hbuild : ∀ {action : Lowering Affine}, Lowering.Composed action →
      Parallel F limit limit' (build (.op o args) action)
        (build (.op o (args.map F.expr)) action) :=
    fun h => F.expr_op o args ▸ .build (.op o args) h
  have hexponent : (args.map F.expr).getD 1 (.const 0) = F.expr (args.getD 1 (.const 0)) := by
    rcases args with _ | ⟨a, _ | ⟨b, rest⟩⟩
    · exact (F.expr_const 0).symm
    · exact (F.expr_const 0).symm
    · rfl
  unfold arithmetic
  dsimp only
  split
  · exact hbuild (.liftM _)
  · exact hbuild (composed_absolute _)
  · exact hbuild (.liftM _)
  · exact hbuild (composed_product _ _)
  · exact hbuild (composed_quotient _ _)
  · exact hbuild (composed_remainder _ _)
  · split
    · exact hbuild (composed_power _ _)
    · rw [hexponent, ← F.expr_op]
      exact .throw (.variableExponent _ _)
  · exact hbuild (.liftM _)
  · exact .throw (.fault _)

theorem readsBounds_hull (forms : List Affine) : Ilp.ReadsBounds fun p => hull p forms := by
  intro p q h
  induction forms with
  | nil => rfl
  | cons form forms ih =>
    have hbounds : p.bounds form = q.bounds form := Ilp.readsBounds_bounds form p q h
    dsimp only at ih ⊢
    rw [hull, hull, hbounds, ih]

/-- A column with the bounds of a hull, and what is made of it. -/
theorem parallel_hull {e : Expr} {forms : List Affine} {f f' : Option (Int × Int) → Translate α}
    (hnone : Parallel F limit limit' (f none) (f' none))
    (hsome : ∀ lower upper, lower ≤ upper →
      Parallel F limit limit' (f (some (lower, upper))) (f' (some (lower, upper)))) :
    Parallel F limit limit' (build e (do hull (← get) forms) >>= f)
      (build (F.expr e) (do hull (← get) forms) >>= f') := by
  refine (Parallel.build e (.read (readsBounds_hull forms))).bind fun found hfound => ?_
  obtain ⟨t, t', hrun⟩ := hfound
  cases found with
  | none => exact hnone
  | some interval => exact hsome _ _ (le_of_hull (hull_eq_ok hrun).1)

theorem parallel_selectItem (e : Expr) (index : Affine) (items : List Affine) :
    Parallel F limit limit' (selectItem e index items) (selectItem (F.expr e) index items) := by
  unfold selectItem
  split
  · split
    · exact .pure _
    · exact .refuse e nofun
  · refine parallel_hull (.refuse e nofun) fun lower upper hle => ?_
    refine (Parallel.build e (.read (Ilp.readsBounds_bounds index))).bind fun range _ => ?_
    dsimp only
    split
    · exact .refuse e nofun
    · exact (Parallel.build e (.auxiliaryInt _ hle)).bind fun target _ =>
        (Parallel.build e (composed_enforceElement _ _ _ _)).bind fun _ _ => .pure _

theorem parallel_extremum (kind : GlobalKind) (args : List Expr) (forms : List Affine) :
    Parallel F limit limit' (extremum kind args forms) (extremum kind (args.map F.expr) forms) := by
  let e : Expr := .global (.plain kind args)
  have he : F.expr e = .global (.plain kind (args.map F.expr)) := by simp [e]
  unfold extremum
  rw [← he]
  refine parallel_hull (e := e) (.refuse e nofun) fun lower upper hle => ?_
  refine (Parallel.build e (.auxiliaryInt _ hle)).bind fun target _ => ?_
  dsimp only
  split
  · exact (Parallel.build e (composed_addExtremum _ _ .le)).bind fun _ _ => .pure _
  · exact (Parallel.build e (composed_addExtremum _ _ .ge)).bind fun _ _ => .pure _

theorem parallel_imposePairs (e : Expr) (c : Comparison) (guards : List Literal)
    (pairs : List (Lowered × Lowered)) :
    Parallel F limit limit' (imposePairs e c guards pairs)
      (imposePairs (F.expr e) c guards pairs) := by
  induction pairs with
  | nil => exact .pure _
  | cons pair rest ih =>
    exact (Parallel.build e (composed_affineOf _)).bind fun _ _ =>
      (Parallel.build e (composed_affineOf _)).bind fun _ _ =>
        (Parallel.build e (composed_enforce _ _)).bind fun _ _ => ih

theorem parallel_imposeClause (e : Expr) (ls guards : List Literal) :
    Parallel F limit limit' (imposeClause e ls guards) (imposeClause (F.expr e) ls guards) :=
  .build e (composed_addClause ls guards)

theorem itemEquality?_relabeled (c : Comparison) (lhs rhs : Expr) :
    itemEquality? c (F.expr lhs) (F.expr rhs) = (itemEquality? c lhs rhs).map
      fun (array, index, other) => (array.map F.expr, F.expr index, F.expr other) := by
  cases c with
  | eq => cases lhs <;> cases rhs <;> simp [itemEquality?]
  | _ => rfl

/-! ## One call -/

/-- The second pair of calls does for expressions with other labels what the first one does. -/
structure ParallelCalls (F : Relabeling) (limit limit' : Nat) (calls calls' : Deeper) : Prop where
  lower : ∀ e, Parallel F limit limit' (calls.lower e) (calls'.lower (F.expr e))
  impose : ∀ e guards,
    Parallel F limit limit' (calls.impose e guards) (calls'.impose (F.expr e) guards)

section Calls

variable (hself : ParallelCalls F limit limit' self self')

include hself

theorem parallel_formBy (e : Expr) :
    Parallel F limit limit' (formBy self.lower e) (formBy self'.lower (F.expr e)) :=
  (hself.lower e).bind fun v _ => .build e (composed_affineOf v)

theorem parallel_literalBy (e : Expr) :
    Parallel F limit limit' (literalBy self.lower e) (literalBy self'.lower (F.expr e)) :=
  (hself.lower e).bind fun v _ => .build e (composed_literalOf v)

theorem parallel_forms (es : List Expr) :
    Parallel F limit limit' (es.mapM (formBy self.lower))
      ((es.map F.expr).mapM (formBy self'.lower)) :=
  .mapM (parallel_formBy hself) es

theorem parallel_literals (es : List Expr) :
    Parallel F limit limit' (es.mapM (literalBy self.lower))
      ((es.map F.expr).mapM (literalBy self'.lower)) :=
  .mapM (parallel_literalBy hself) es

theorem parallel_conjunction (g : Global) :
    Parallel F limit limit'
      (Lowered.literal <$> decomposed limit g fun cs => literalBy self.lower (.all cs))
      (Lowered.literal <$> decomposed limit' (F.global g) fun cs =>
        literalBy self'.lower (.all cs)) := by
  refine (Parallel.decomposed g fun cs => ?_).map _
  have hall := parallel_literalBy hself (.all cs)
  rwa [show F.expr (.all cs) = .all (cs.map F.expr) from F.expr_nary .and cs] at hall

theorem parallel_callLowerOp (o : Operator) (args : List Expr) :
    Parallel F limit limit' (Deeper.callLower limit self (.op o args))
      (Deeper.callLower limit' self' (.op o (args.map F.expr))) := by
  have hop := F.expr_op o args
  refine (parallel_checkArity o args).bind fun _ _ => ?_
  have hconnective : Parallel F limit limit'
      (args.mapM (literalBy self.lower) >>= fun ls =>
        Lowered.literal <$> build (.op o args) (connective o ls))
      ((args.map F.expr).mapM (literalBy self'.lower) >>= fun ls =>
        Lowered.literal <$> build (.op o (args.map F.expr)) (connective o ls)) :=
    (parallel_literals hself args).bind fun ls _ =>
      (hop ▸ Parallel.build (.op o args) (composed_connective o ls)).map _
  have harithmetic : Parallel F limit limit'
      (args.mapM (formBy self.lower) >>= fun forms =>
        Lowered.ofAffine <$> arithmetic o args forms)
      ((args.map F.expr).mapM (formBy self'.lower) >>= fun forms =>
        Lowered.ofAffine <$> arithmetic o (args.map F.expr) forms) :=
    (parallel_forms hself args).bind fun forms _ => (parallel_arithmetic o args forms).map _
  cases o with
  | xor => exact hop ▸ .refuse (.op .xor args) nofun
  | and => exact hconnective
  | or => exact hconnective
  | implies => exact hconnective
  | _ => exact harithmetic

theorem parallel_callLower (e : Expr) :
    Parallel F limit limit' (Deeper.callLower limit self e)
      (Deeper.callLower limit' self' (F.expr e)) := by
  cases e with
  | const c =>
    rw [F.expr_const]
    exact .pure _
  | var v =>
    rw [F.expr_var]
    exact (Parallel.imageOf v).bind fun _ _ => .pure _
  | complement v =>
    have hcomplement := F.expr_complement v
    rw [hcomplement]
    refine (Parallel.imageOf v).bind fun image _ => ?_
    cases image with
    | bool l => exact .pure _
    | int i => exact hcomplement ▸ .refuse (.complement v) nofun
  | list items =>
    rw [F.expr_list]
    exact (Parallel.mapM hself.lower items).bind fun _ _ => .pure _
  | op o args => exact F.expr_op o args ▸ parallel_callLowerOp hself o args
  | compare c lhs rhs =>
    rw [F.expr_compare]
    exact (parallel_formBy hself lhs).bind fun l _ => (parallel_formBy hself rhs).bind fun r _ =>
      .pure _
  | element array index =>
    have helement := F.expr_element array index
    rw [helement]
    exact (parallel_formBy hself index).bind fun i _ => (parallel_forms hself array).bind
      fun items _ => helement ▸ parallel_selectItem (.element array index) i items
  | global g =>
    have hconjunction := parallel_conjunction hself g
    rw [F.expr_global]
    cases g with
    | plain kind args =>
      rw [F.global_plain] at hconjunction ⊢
      have hextremum : ∀ kind, Parallel F limit limit'
          (args.mapM (formBy self.lower) >>= extremum kind args)
          ((args.map F.expr).mapM (formBy self'.lower) >>= extremum kind (args.map F.expr)) :=
        fun kind => (parallel_forms hself args).bind fun forms _ =>
          parallel_extremum kind args forms
      cases kind with
      | min => exact hextremum .min
      | max => exact hextremum .max
      | _ => exact hconjunction
    | count args value =>
      let total : Expr := .sum (args.map fun a => a.equals value)
      have htotal : F.expr total =
          .sum ((args.map F.expr).map fun a => a.equals (F.expr value)) := by
        rw [show F.expr total = _ from F.expr_nary .sum _]
        simp [Expr.sum, Expr.equals, Function.comp_def]
      rw [F.global_count]
      show Parallel F limit limit' (self.lower total) (self'.lower (.sum _))
      rw [← htotal]
      exact hself.lower total
    | cardinality args values counts => exact F.global_cardinality args values counts ▸ hconjunction
    | named name args => exact F.global_named name args ▸ hconjunction
    | defined name args constraints newVars =>
      exact F.global_defined name args constraints newVars ▸ hconjunction

theorem parallel_callImposeLiteral (e : Expr) (guards : List Literal) :
    Parallel F limit limit' (Deeper.callImposeLiteral self e guards)
      (Deeper.callImposeLiteral self' (F.expr e) guards) :=
  (parallel_literalBy hself e).bind fun l _ => parallel_imposeClause e [l] guards

theorem parallel_callImposeComparison (c : Comparison) (lhs rhs : Expr) (guards : List Literal) :
    Parallel F limit limit' (Deeper.callImposeComparison self c lhs rhs guards)
      (Deeper.callImposeComparison self' c (F.expr lhs) (F.expr rhs) guards) := by
  unfold Deeper.callImposeComparison
  rw [itemEquality?_relabeled, ← F.expr_compare]
  let e : Expr := .compare c lhs rhs
  cases itemEquality? c lhs rhs with
  | some found =>
    exact (parallel_formBy hself _).bind fun i _ => (parallel_forms hself _).bind fun items _ =>
      (parallel_formBy hself _).bind fun target _ =>
        .build e (composed_enforceElement i items target guards)
  | none =>
    refine (hself.lower lhs).bind fun left _ => (hself.lower rhs).bind fun right _ => ?_
    cases left.pairUp right with
    | some pairs => exact parallel_imposePairs e c guards pairs
    | none => exact .throw (.shapeMismatch _ _)

theorem parallel_callImposeGlobal (g : Global) (guards : List Literal) :
    Parallel F limit limit' (Deeper.callImposeGlobal limit self g guards)
      (Deeper.callImposeGlobal limit' self' (F.global g) guards) := by
  have hvalue : Parallel F limit limit' (discard (self.lower (.global g)))
      (discard (self'.lower (.global (F.global g)))) := by
    rw [← F.expr_global]
    exact (hself.lower (.global g)).map _
  have hmembers : Parallel F limit limit'
      (decomposed limit g fun cs => cs.forM fun c => self.impose c guards)
      (decomposed limit' (F.global g) fun cs => cs.forM fun c => self'.impose c guards) :=
    .decomposed g fun cs => .forM (fun c => hself.impose c guards) cs
  cases g with
  | plain kind args =>
    have hplain : F.expr (.global (.plain kind args)) = .global (.plain kind (args.map F.expr)) := by
      rw [F.expr_global, F.global_plain]
    rw [F.global_plain] at hvalue hmembers ⊢
    cases kind with
    | allDifferent =>
      exact (parallel_forms hself args).bind fun forms _ => hplain ▸
        .build (.global (.plain .allDifferent args)) (composed_enforceDistinct guards forms)
    | min => exact hvalue
    | max => exact hvalue
    | _ => exact hmembers
  | count args value => exact F.global_count args value ▸ hvalue
  | cardinality args values counts => exact F.global_cardinality args values counts ▸ hmembers
  | named name args => exact F.global_named name args ▸ hmembers
  | defined name args constraints newVars =>
    exact F.global_defined name args constraints newVars ▸ hmembers

/-- An implication: a clause where both sides are literals and there is no guard. -/
theorem parallel_callImposeImplication (a b : Expr) (guards : List Literal) :
    Parallel F limit limit' (Deeper.callImpose limit self (.op .implies [a, b]) guards)
      (Deeper.callImpose limit' self' (.op .implies [F.expr a, F.expr b]) guards) := by
  have hop : F.expr (.op .implies [a, b]) = .op .implies [F.expr a, F.expr b] := F.expr_op _ _
  show Parallel F limit limit'
    (if guards.isEmpty ∧ a.asBoolLiteral.isSome ∧ b.asBoolLiteral.isSome then _ else _)
    (if guards.isEmpty ∧ (F.expr a).asBoolLiteral.isSome ∧ (F.expr b).asBoolLiteral.isSome
      then _ else _)
  rw [F.isSome_asBoolLiteral, F.isSome_asBoolLiteral]
  split
  · exact (parallel_literalBy hself a).bind fun l _ => (parallel_literalBy hself b).bind fun k _ =>
      hop ▸ .build (.op .implies [a, b]) (composed_addClause [l.negate, k] [])
  · exact (parallel_literalBy hself a).bind fun l _ => hself.impose b (guards ++ [l])

theorem parallel_callImposeOp (o : Operator) (args : List Expr) (guards : List Literal) :
    Parallel F limit limit' (Deeper.callImpose limit self (.op o args) guards)
      (Deeper.callImpose limit' self' (.op o (args.map F.expr)) guards) := by
  have hop := F.expr_op o args
  have hliteral := hop ▸ parallel_callImposeLiteral hself (.op o args) guards
  cases o with
  | and => exact .forM (fun e => hself.impose e guards) args
  | or =>
    exact (parallel_literals hself args).bind fun ls _ =>
      hop ▸ parallel_imposeClause (.op .or args) ls guards
  | xor =>
    exact (parallel_literals hself args).bind fun ls _ =>
      hop ▸ .build (.op .xor args) (composed_addParity ls guards)
  | implies =>
    rcases args with _ | ⟨a, _ | ⟨b, _ | ⟨c, rest⟩⟩⟩
    · exact hliteral
    · exact hliteral
    · exact parallel_callImposeImplication hself a b guards
    · exact hliteral
  | _ => exact hliteral

theorem parallel_callImpose (e : Expr) (guards : List Literal) :
    Parallel F limit limit' (Deeper.callImpose limit self e guards)
      (Deeper.callImpose limit' self' (F.expr e) guards) := by
  have hliteral := parallel_callImposeLiteral hself e guards
  cases e with
  | const c =>
    have hclause : Parallel F limit limit' _ _ := parallel_imposeClause (.const c) [] guards
    rw [F.expr_const] at hclause ⊢
    show Parallel F limit limit' (if c = 0 then _ else _) (if c = 0 then _ else _)
    split
    · exact hclause
    · exact .pure _
  | list items => exact F.expr_list items ▸ .forM (fun e => hself.impose e guards) items
  | op o args => exact F.expr_op o args ▸ parallel_callImposeOp hself o args guards
  | compare c lhs rhs =>
    exact F.expr_compare c lhs rhs ▸ parallel_callImposeComparison hself c lhs rhs guards
  | global g => exact F.expr_global g ▸ parallel_callImposeGlobal hself g guards
  | var v =>
    rw [F.expr_var] at hliteral ⊢
    exact hliteral
  | complement v =>
    rw [F.expr_complement] at hliteral ⊢
    exact hliteral
  | element array index =>
    rw [F.expr_element] at hliteral ⊢
    exact hliteral

end Calls

/-! ## The recursion -/

theorem parallel_unrolled (F : Relabeling) (limit limit' calls : Nat) :
    ParallelCalls F limit limit' (unrolled limit exhausted calls)
      (unrolled limit' exhausted calls) := by
  induction calls with
  | zero => exact ⟨fun _ => .throw (.fault _), fun _ _ => .throw (.fault _)⟩
  | succ calls ih => exact ⟨parallel_callLower ih, parallel_callImpose ih⟩

/-- Both runs are those of parallel steps, with as many calls unrolled as either of them needs. -/
theorem exists_parallel_lowerExpr (F : Relabeling) (config config' : Config) (t t' : Draft)
    (e : Expr) : ∃ m m' : Translate Lowered,
      Parallel F config.maxDecompositionDepth config'.maxDecompositionDepth m m' ∧
        m t = lowerExpr config e t ∧ m' t' = lowerExpr config' (F.expr e) t' := by
  obtain ⟨k, hk⟩ := exists_calls_lower config t e
  obtain ⟨k', hk'⟩ := exists_calls_lower config' t' (F.expr e)
  exact ⟨_, _, (parallel_unrolled F _ _ (max k k')).lower e, hk _ (Nat.le_max_left k k') _,
    hk' _ (Nat.le_max_right k k') _⟩

theorem exists_parallel_imposeExpr (F : Relabeling) (config config' : Config) (t t' : Draft)
    (e : Expr) (guards : List Literal) : ∃ m m' : Translate Unit,
      Parallel F config.maxDecompositionDepth config'.maxDecompositionDepth m m' ∧
        m t = imposeExpr config e guards t ∧ m' t' = imposeExpr config' (F.expr e) guards t' := by
  obtain ⟨k, hk⟩ := exists_calls_impose config t e guards
  obtain ⟨k', hk'⟩ := exists_calls_impose config' t' (F.expr e) guards
  exact ⟨_, _, (parallel_unrolled F _ _ (max k k')).impose e guards, hk _ (Nat.le_max_left k k') _,
    hk' _ (Nat.le_max_right k k') _⟩

/-! ## What elementary steps keep -/

/-- Whatever the outcome, an elementary step leads from a draft to one that is related to it. -/
structure Elementary (R : Draft → Draft → Prop) : Prop where
  refl : ∀ t, R t t
  trans : ∀ {t t' t''}, R t t' → R t' t'' → R t t''
  build : ∀ {α : Type} (e : Expr) {action : Lowering α}, Lowering.Composed action →
    Keeps R (Translate.build e action)
  withVars : ∀ (t : Draft) vs, R t (t.withVars vs)
  logged : ∀ (t : Draft) g, R t (t.logged g)
  atDepth : ∀ (t : Draft) depth deepest, R t { t with depth, deepest }

namespace Elementary

variable {R : Draft → Draft → Prop} {config : Config} {m : Model} {t : Draft} {u : Unit}

theorem registerAll (h : Elementary R) (vs : List Var) : Keeps R (registerAll vs) := by
  intro t
  unfold KeepsAt
  rw [stateAfter_of_ok (registerAll_run vs t)]
  exact h.withVars t vs

theorem members (h : Elementary R) (g : Global) : Keeps R (members g) := by
  have : Std.Refl R := ⟨h.refl⟩
  have : Trans R R R := ⟨h.trans⟩
  have hlog : Keeps R (modify (·.logged g) : Translate PUnit) := fun t => h.logged t g
  refine Keeps.get.bind fun t => ?_
  cases g.decompose t.program.columns.size with
  | none => exact .throw _
  | some d => exact (h.registerAll _).bind fun _ => hlog.bind fun _ => .pure _

theorem nested (h : Elementary R) {m : Translate α} (hm : Keeps R m) :
    Keeps R (Translate.nested m) := by
  intro t
  unfold KeepsAt
  rw [stateAfter_nested]
  exact h.trans (h.atDepth t _ _) (h.trans (hm _) (h.atDepth _ _ _))

theorem keeps (h : Elementary R) {m m' : Translate α} (hm : Parallel F limit limit' m m') :
    Keeps R m := by
  -- only what the first translation is composed of matters
  have : Std.Refl R := ⟨h.refl⟩
  have : Trans R R R := ⟨h.trans⟩
  induction hm with
  | pure a => exact .pure a
  | throw _ => exact .throw _
  | @bind α β m m' f f' _ _ ihm ihf =>
    exact fun t => (ihm t).bind fun a t' hrun => ihf a ⟨t, t', hrun⟩ t'
  | build e haction => exact h.build e haction
  | imageOf v =>
    refine Keeps.get.bind fun t => ?_
    cases t.layout.get? v with
    | some image => exact .pure image
    | none => exact .throw _
  | decomposed g _ ih =>
    refine Keeps.get.bind fun t => ?_
    split
    · exact .throw _
    · exact (h.members g).bind fun cs => h.nested (ih cs)

theorem lowerExpr (h : Elementary R) (config : Config) (e : Expr) :
    Keeps R (lowerExpr config e) := by
  intro t
  obtain ⟨m, m', hparallel, hm, -⟩ := exists_parallel_lowerExpr .identity config config t t e
  have hkeeps := h.keeps hparallel t
  unfold KeepsAt stateAfter at hkeeps ⊢
  rwa [hm] at hkeeps

theorem imposeExpr (h : Elementary R) (config : Config) (e : Expr) (guards : List Literal) :
    Keeps R (imposeExpr config e guards) := by
  intro t
  obtain ⟨m, m', hparallel, hm, -⟩ :=
    exists_parallel_imposeExpr .identity config config t t e guards
  have hkeeps := h.keeps hparallel t
  unfold KeepsAt stateAfter at hkeeps ⊢
  rwa [hm] at hkeeps

/-- What follows the registration of the variables of a model. -/
theorem of_model (h : Elementary R) {limit : Nat} (hrun : model config m (.start limit) = .ok u t) :
    R (registered limit m) t := by
  have : Std.Refl R := ⟨h.refl⟩
  have : Trans R R R := ⟨h.trans⟩
  obtain ⟨_, _, hregister, hrest⟩ := bind_eq_ok.1 hrun
  cases (registerAll_run m.vars _).symm.trans hregister
  refine Keeps.of_ok (Keeps.bind (Keeps.forM (fun c => h.imposeExpr config c []) _) fun _ => ?_)
    hrest
  cases m.objective with
  | none => exact .pure _
  | some o =>
    exact (h.lowerExpr config o.expr).bind fun v => h.build o.expr
      ((composed_affineOf v).bind fun e _ => .setObjective o.direction e)

end Elementary

end Translate

end Linearization
