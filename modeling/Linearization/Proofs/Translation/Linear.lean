import Linearization.Proofs.Coefficients
import Linearization.Proofs.Expr.Parts
import Linearization.Proofs.Translation.Images
import Linearization.Proofs.Translation.Operations

/-!
# Linear expressions

Constants, variables, complements of truth values, negations, differences, sums, and products with a
side without variables are lowered without touching the draft. The result has a form with exactly
the coefficients of the expression, or it is an overflow, and then an exact number on the way is no
word (`Translate.lowerExpr_linear`).

The coefficients of an expression are read off its values (`Expr.coefficient`). A form that has the
value of an expression under every assignment, `Layout.Gives`, has them column by column where every
variable has a column of its own (`Draft.Faithful.represents`). So the recursion only has to keep
values, however often a form collapses to a constant or a column and is unfolded again.
-/

namespace Linearization

namespace Expr

/-- Built from constants, variables, complements of truth values, negations, differences, sums and
products with a side without variables. -/
inductive IsLinear : Expr → Prop where
  | const (c : Int) : IsLinear (const c)
  | var (v : Var) : IsLinear (var v)
  | complement {v : Var} (hv : v.isBool = true) : IsLinear (complement v)
  | neg {a : Expr} (ha : IsLinear a) : IsLinear (op .neg [a])
  | sub {a b : Expr} (ha : IsLinear a) (hb : IsLinear b) : IsLinear (op .sub [a, b])
  | sum {args : List Expr} (hargs : ∀ a ∈ args, IsLinear a) : IsLinear (op .sum args)
  | mul {a b : Expr} (ha : IsLinear a) (hb : IsLinear b) (h : a.vars = [] ∨ b.vars = []) :
    IsLinear (op .mul [a, b])

/-- The value where all variables are zero. -/
def constantPart (e : Expr) : Int := (e.value? fun _ => 0).getD 0

/-- What the unit of a variable adds to the value. -/
def coefficient (e : Expr) (k : VarKey) : Int :=
  (e.value? (Valuation.update (fun _ => 0) k 1)).getD 0 - e.constantPart

/-- A coefficient or the constant of the exact result is no word. -/
def Leaves (e : Expr) : Prop := Word.SomeLeaves e.coefficient e.constantPart

/-- The result is not made of words, or what is computed on the way to it: for a difference the
negation of the right side, and for a sum the sums of its first terms. -/
def Overflows (e : Expr) : Prop :=
  match e with
  | op .sub [_, b] => (op .neg [b]).Leaves ∨ e.Leaves
  | op .sum args => ∃ n, (op .sum (args.take n)).Leaves
  | _ => e.Leaves

end Expr

/-! ## Forms of expressions -/

namespace Layout

variable {r : Layout} {a form : Affine} {forms : List Affine} {e : Expr} {args : List Expr}
  {o : Operator}

/-- The form has the value of the expression under every assignment. -/
def Gives (r : Layout) (form : Affine) (e : Expr) : Prop :=
  ∀ x : Assignment, e.value? (r.valuation x) = some (form.eval x)

/-- The form has exactly the constant and the coefficients of the expression, in the columns of the
variables. A column has a term exactly if its variable has a coefficient other than zero. -/
structure Represents (r : Layout) (form : Affine) (e : Expr) : Prop where
  value : r.Gives form e
  constant : form.constant = e.constantPart
  coefficient : ∀ v image, r.get? v = some image →
    form.coefficient image.column = e.coefficient v.toVarKey
  column : ∀ i, (∃ s ∈ form.terms, s.column = i) ↔
    ∃ v image, r.get? v = some image ∧ image.column = i ∧ e.coefficient v.toVarKey ≠ 0

theorem gives_op (hforms : List.Forall₂ r.Gives forms args)
    (ho : ∀ x : Assignment, o.apply (forms.map (·.eval x)) = some (a.eval x)) :
    r.Gives a (.op o args) := by
  intro x
  have hvalues : valuesOf (r.valuation x) args = (forms.map (·.eval x)).map some := by
    clear ho
    induction hforms with
    | nil => rfl
    | cons h _ ih => rw [valuesOf, h x, ih, List.map_cons, List.map_cons]
  rw [Expr.value?, hvalues, mapM_id_map_some]
  exact ho x

theorem Gives.asConstant_of_vars (h : r.Gives form e) (hvars : e.vars = []) :
    form.asConstant = some form.constant := by
  have hcovers : ({} : Layout).Covers e := covers_of_vars (by simp [hvars])
  rw [Affine.asConstant_eq_some_iff]
  intro x
  have hvalue := hasFrame e (hcovers.agree (σ := r.valuation x) (τ := r.valuation fun _ => 0)
    fun v hv => nomatch hv)
  rw [h x, h fun _ => 0, Affine.eval_zero] at hvalue
  exact Option.some.inj hvalue

theorem valuation_zero (r : Layout) : r.valuation (fun _ => 0) = fun _ => 0 := by
  funext k
  unfold valuation
  split <;> rfl

/-- The unit of a column that no variable has is not noticed. -/
theorem valuation_unit_of_unused {i : Nat}
    (hi : ∀ v image, r.get? v = some image → image.column ≠ i) :
    r.valuation (Term.unit i) = fun _ => 0 := by
  funext k
  unfold valuation
  split
  · rename_i image hget
    exact Term.unit_of_ne (hi _ image hget)
  · rfl

theorem Gives.constant_eq (h : r.Gives form e) : form.constant = e.constantPart := by
  unfold Expr.constantPart
  rw [← r.valuation_zero, h, Affine.eval_zero]
  rfl

theorem Gives.coefficient_of_unused (h : r.Gives form e) {i : Nat}
    (hi : ∀ v image, r.get? v = some image → image.column ≠ i) : form.coefficient i = 0 := by
  have hunit := h (Term.unit i)
  rw [valuation_unit_of_unused hi, ← r.valuation_zero, h, Affine.eval_zero,
    Affine.eval_unit] at hunit
  have hsum := Option.some.inj hunit
  omega

end Layout

namespace Draft.Faithful

variable {t : Draft} {v : Var} {image : Image} {form : Affine} {e : Expr}

/-- The unit of the column of a variable is the unit of the variable. -/
theorem valuation_unit (ht : t.Faithful) (hv : t.layout.get? v = some image) :
    t.layout.valuation (Term.unit image.column) =
      Valuation.update (fun _ => 0) v.toVarKey 1 := by
  funext k
  unfold Layout.valuation Valuation.update
  by_cases hk : k = v.toVarKey
  · subst hk
    have hget : t.layout.get? ⟨v.toVarKey, ""⟩ = some image := hv
    simp [hget]
  · cases hget : t.layout.get? ⟨k, ""⟩ with
    | none => simp [hk]
    | some image' =>
      have hcolumn : image'.column ≠ image.column := fun h => hk (ht.key_eq hget hv h)
      simp [hk, Term.unit_of_ne hcolumn]

theorem coefficient_eq (ht : t.Faithful) (h : t.layout.Gives form e)
    (hv : t.layout.get? v = some image) :
    form.coefficient image.column = e.coefficient v.toVarKey := by
  unfold Expr.coefficient
  rw [← ht.valuation_unit hv, h, Affine.eval_unit, ← h.constant_eq]
  show _ = form.coefficient image.column + form.constant - form.constant
  omega

/-- A form with the value of the expression everywhere has its constant and its coefficients. -/
theorem represents (ht : t.Faithful) (h : t.layout.Gives form e) :
    t.layout.Represents form e where
  value := h
  constant := h.constant_eq
  coefficient v image hv := ht.coefficient_eq h hv
  column i := by
    rw [Affine.exists_term_iff]
    constructor
    · intro hne
      by_contra hnone
      apply hne
      apply h.coefficient_of_unused
      intro v image hv hcolumn
      subst hcolumn
      rw [ht.coefficient_eq h hv] at hne
      exact hnone ⟨v, image, hv, rfl, hne⟩
    · rintro ⟨v, image, hv, rfl, hne⟩
      rwa [ht.coefficient_eq h hv]

/-- If a number of the form is no word, it is one of the expression. -/
theorem leaves_of_not_fits (ht : t.Faithful) (h : t.layout.Gives form e) (hfits : ¬ form.Fits) :
    e.Leaves := by
  rw [Affine.not_fits_iff] at hfits
  rcases hfits with hconstant | ⟨i, hi⟩
  · rw [h.constant_eq] at hconstant
    exact .inl hconstant
  · by_cases hused : ∃ v image, t.layout.get? v = some image ∧ image.column = i
    · obtain ⟨v, image, hv, rfl⟩ := hused
      rw [ht.coefficient_eq h hv] at hi
      exact .inr ⟨_, hi⟩
    · rw [h.coefficient_of_unused fun v image hv hcolumn => hused ⟨v, image, hv, hcolumn⟩] at hi
      exact absurd Word.fits_zero hi

end Draft.Faithful

namespace Translate

variable {α β : Type} {t : Draft} {ds ds' : List Expr} {P : α → Prop} {Q : β → Prop}
  {m : Translate α} {f : α → Translate β} {e : Expr} {args : List Expr} {o : Operator}
  {c acc : Affine} {forms : List Affine} {limit : Nat} {deeper : Option Deeper} {v : Var}

/-! ## Steps that leave the draft alone -/

/-- In the draft the step gives a result with the property, or it fails because of an overflow at
one of the expressions. Either way the draft stays as it is. -/
def Evaluates (t : Draft) (ds : List Expr) (P : α → Prop) (m : Translate α) : Prop :=
  (∃ a, m t = .ok a t ∧ P a) ∨
    ∃ d ∈ ds, d.Overflows ∧ m t = .error (.untranslatable d (.lowering .overflow)) t

namespace Evaluates

theorem of_ok {a : α} (h : m t = .ok a t) (ha : P a) : Evaluates t ds P m := .inl ⟨a, h, ha⟩

theorem pure {a : α} (ha : P a) : Evaluates t ds P (Pure.pure a) := of_ok rfl ha

theorem bind (hm : Evaluates t ds P m) (hf : ∀ a, P a → Evaluates t ds Q (f a)) :
    Evaluates t ds Q (m >>= f) := by
  rcases hm with ⟨a, hok, ha⟩ | ⟨d, hd, hover, herror⟩
  · unfold Evaluates
    rw [bind_of_ok hok]
    exact hf a ha
  · exact .inr ⟨d, hd, hover, bind_of_error herror⟩

theorem mono (hm : Evaluates t ds P m) (hds : ds ⊆ ds') : Evaluates t ds' P m := by
  rcases hm with hok | ⟨d, hd, herror⟩
  · exact .inl hok
  · exact .inr ⟨d, hds hd, herror⟩

theorem mapM {R : β → α → Prop} {f : α → Translate β} {as : List α}
    (h : ∀ a ∈ as, Evaluates t ds (R · a) (f a)) :
    Evaluates t ds (List.Forall₂ R · as) (as.mapM f) := by
  induction as with
  | nil => exact pure .nil
  | cons a as ih =>
    rw [List.forall_mem_cons] at h
    rw [List.mapM_cons]
    exact h.1.bind fun b hb => (ih h.2).bind fun bs hbs => pure (.cons hb hbs)

end Evaluates

theorem build_ofExcept_ok {r : Except LoweringError Affine} (h : r = .ok c) :
    build e (Lowering.ofExcept r) t = .ok c t := by
  subst h
  rfl

theorem build_ofExcept_overflow {r : Except LoweringError Affine} (h : r = .error .overflow) :
    build e (Lowering.ofExcept r) t = .error (.untranslatable e (.lowering .overflow)) t := by
  subst h
  rfl

/-! ## Arithmetic -/

theorem evaluates_checked (ht : t.Faithful) (hc : t.layout.Gives c e)
    (hover : e.Leaves → e.Overflows) :
    Evaluates t [e] (t.layout.Gives · e) (build e (Lowering.ofExcept c.checked)) := by
  by_cases hfits : c.Fits
  · exact .of_ok (build_ofExcept_ok (Affine.checked_of_fits hfits)) hc
  · exact .inr ⟨e, List.mem_singleton_self e, hover (ht.leaves_of_not_fits hc hfits),
      build_ofExcept_overflow (Affine.checked_of_not_fits hfits)⟩

theorem gives_neg {a : Expr} (ha : t.layout.Gives c a) :
    t.layout.Gives (Affine.smul (-1) c) (.op .neg [a]) := by
  apply Layout.gives_op (.cons ha .nil)
  intro x
  rw [Affine.eval_smul, Int.neg_one_mul]
  rfl

theorem evaluates_neg (ht : t.Faithful) {a : Expr} (ha : t.layout.Gives c a) :
    Evaluates t [.op .neg [a]] (t.layout.Gives · (.op .neg [a])) (arithmetic .neg [a] [c]) :=
  evaluates_checked ht (gives_neg ha) id

/-- The right side is negated first, which may overflow where the difference does not. -/
theorem evaluates_sub (ht : t.Faithful) {a b : Expr} {d : Affine} (ha : t.layout.Gives c a)
    (hb : t.layout.Gives d b) :
    Evaluates t [.op .sub [a, b]] (t.layout.Gives · (.op .sub [a, b]))
      (arithmetic .sub [a, b] [c, d]) := by
  show Evaluates t _ _ (build _ (Lowering.ofExcept (c.minus d)))
  by_cases hfits : (Affine.smul (-1) d).Fits
  · have hminus : c.minus d = (c + Affine.smul (-1) d).checked := by
      show (do c.plus (← (Affine.smul (-1) d).checked)) = _
      rw [Affine.checked_of_fits hfits]
      rfl
    rw [hminus]
    refine evaluates_checked ht ?_ Or.inr
    apply Layout.gives_op (.cons ha (.cons hb .nil))
    intro x
    rw [Affine.eval_add, Affine.eval_smul, Int.neg_one_mul, ← Int.sub_eq_add_neg]
    rfl
  · have hminus : c.minus d = .error .overflow := by
      show (do c.plus (← (Affine.smul (-1) d).checked)) = _
      rw [Affine.checked_of_not_fits hfits]
      rfl
    exact .inr ⟨_, List.mem_singleton_self _, .inl (ht.leaves_of_not_fits (gives_neg hb) hfits),
      build_ofExcept_overflow hminus⟩

theorem gives_sum (hforms : List.Forall₂ t.layout.Gives forms args)
    (hacc : ∀ x : Assignment, acc.eval x = (forms.map (·.eval x)).sum) :
    t.layout.Gives acc (.op .sum args) := by
  apply Layout.gives_op hforms
  intro x
  rw [hacc]
  rfl

theorem evaluates_foldlM (ht : t.Faithful) {done rest : List Expr} {fs gs : List Affine}
    (hdone : List.Forall₂ t.layout.Gives fs done) (hrest : List.Forall₂ t.layout.Gives gs rest)
    (hacc : ∀ x : Assignment, acc.eval x = (fs.map (·.eval x)).sum) :
    Evaluates t [.op .sum (done ++ rest)] (t.layout.Gives · (.op .sum (done ++ rest)))
      (build (.op .sum (done ++ rest)) (Lowering.ofExcept (gs.foldlM Affine.plus acc))) := by
  -- the induction is on the terms that are still to be added to the sum of the first ones
  induction hrest generalizing done fs acc with
  | nil =>
    rw [List.append_nil]
    exact .of_ok (build_ofExcept_ok rfl) (gives_sum hdone hacc)
  | @cons g a gs rest hg hrest ih =>
    have hnext : List.Forall₂ t.layout.Gives (fs ++ [g]) (done ++ [a]) :=
      List.rel_append hdone (.cons hg .nil)
    have hsum : ∀ x : Assignment, (acc + g).eval x = ((fs ++ [g]).map (·.eval x)).sum := by
      intro x
      rw [Affine.eval_add, hacc, List.map_append, List.sum_append]
      simp
    rw [List.foldlM_cons, List.append_cons done a rest]
    by_cases hfits : (acc + g).Fits
    · have hplus : acc.plus g = .ok (acc + g) := Affine.checked_of_fits hfits
      rw [hplus]
      exact ih hnext hsum
    · have hplus : acc.plus g = .error .overflow := Affine.checked_of_not_fits hfits
      rw [hplus]
      refine .inr ⟨_, List.mem_singleton_self _, ⟨(done ++ [a]).length, ?_⟩, rfl⟩
      rw [List.take_left]
      exact ht.leaves_of_not_fits (gives_sum hnext hsum) hfits

theorem evaluates_sum (ht : t.Faithful) (hforms : List.Forall₂ t.layout.Gives forms args) :
    Evaluates t [.op .sum args] (t.layout.Gives · (.op .sum args))
      (arithmetic .sum args forms) :=
  evaluates_foldlM ht .nil hforms fun x => Affine.eval_const x 0

/-- A side without variables has become a constant, so the other one is scaled. -/
theorem evaluates_mul (ht : t.Faithful) {a b : Expr} {d : Affine} (ha : t.layout.Gives c a)
    (hb : t.layout.Gives d b) (h : a.vars = [] ∨ b.vars = []) :
    Evaluates t [.op .mul [a, b]] (t.layout.Gives · (.op .mul [a, b]))
      (arithmetic .mul [a, b] [c, d]) := by
  have hscaled : ∀ {k : Int} {form : Affine},
      (∀ x : Assignment, k * form.eval x = c.eval x * d.eval x) →
      Evaluates t [.op .mul [a, b]] (t.layout.Gives · (.op .mul [a, b]))
        (build (.op .mul [a, b]) (Lowering.ofExcept (form.scale k))) := by
    intro k form heval
    refine evaluates_checked (c := Affine.smul k form) ht ?_ id
    apply Layout.gives_op (.cons ha (.cons hb .nil))
    intro x
    rw [Affine.eval_smul, heval]
    rfl
  show Evaluates t _ _ (build _ (Lowering.product c d))
  unfold Lowering.product
  cases hc : c.asConstant with
  | some k => exact hscaled fun x => by rw [Affine.eval_of_asConstant hc]
  | none =>
    cases hd : d.asConstant with
    | some k => exact hscaled fun x => by rw [Affine.eval_of_asConstant hd, Int.mul_comm]
    | none =>
      rcases h with h | h
      · rw [ha.asConstant_of_vars h] at hc
        cases hc
      · rw [hb.asConstant_of_vars h] at hd
        cases hd

/-! ## Expressions -/

/-- The lowered value has a form with the values of the expression. -/
def HasForm (t : Draft) (e : Expr) (n : Lowered) : Prop :=
  ∃ form, Lowering.affineOf n t.program = .ok form t.program ∧ t.layout.Gives form e

theorem hasForm_ofAffine (hc : t.layout.Gives c e) : HasForm t e (.ofAffine c) :=
  ⟨c, Lowering.affineOf_ofAffine c t.program, hc⟩

theorem evaluates_affine (h : Evaluates t ds (HasForm t e) (lower limit deeper e)) :
    Evaluates t ds (t.layout.Gives · e) (affine limit deeper e) := by
  apply h.bind
  rintro n ⟨form, hform, hgives⟩
  have hrun : build e (Lowering.affineOf n) t = .ok form t := by
    unfold build
    rw [hform]
  exact .of_ok hrun hgives

theorem evaluates_imageOf (ht : t.Faithful) (hv : t.layout.Has v) :
    Evaluates t ds (fun image => image = v.imageAt image.column ∧
      ∀ x : Assignment, t.layout.valuation x v.toVarKey = x image.column) (imageOf v) := by
  obtain ⟨image, himage⟩ := Option.isSome_iff_exists.1 hv
  have hrun : imageOf v t = .ok image t := by
    unfold imageOf
    rw [get_bind, himage]
    rfl
  exact .of_ok hrun ⟨ht.image_eq himage, fun x => Layout.valuation_of_get? himage⟩

theorem evaluates_var (ht : t.Faithful) (hv : t.layout.Has v) :
    Evaluates t ds (HasForm t (.var v)) (lower limit deeper (.var v)) := by
  apply (evaluates_imageOf ht hv).bind
  rintro image ⟨hkind, hvalue⟩
  apply Evaluates.pure
  rw [hkind]
  unfold Var.imageAt
  split
  · refine ⟨_, rfl, fun x => ?_⟩
    rw [Expr.value?, hvalue, Literal.eval_toAffine]
    rfl
  · refine ⟨_, rfl, fun x => ?_⟩
    rw [Expr.value?, hvalue, Affine.eval_ofColumn]

theorem evaluates_complement (ht : t.Faithful) (hv : t.layout.Has v) (hbool : v.isBool = true) :
    Evaluates t ds (HasForm t (.complement v)) (lower limit deeper (.complement v)) := by
  apply (evaluates_imageOf ht hv).bind
  rintro image ⟨hkind, hvalue⟩
  unfold Var.imageAt at hkind
  rw [if_pos hbool] at hkind
  rw [hkind]
  apply Evaluates.pure
  refine ⟨_, rfl, fun x => ?_⟩
  rw [Expr.value?, hvalue, Literal.eval_toAffine_negate, Literal.eval_toAffine]
  rfl

theorem evaluates_op (ho : o.IsArithmetic) (harity : ∀ k, o.arity = some k → args.length = k)
    (hargs : ∀ a ∈ args, Evaluates t a.nodes (HasForm t a) (lower limit deeper a))
    (harith : ∀ forms, List.Forall₂ t.layout.Gives forms args →
      Evaluates t [.op o args] (t.layout.Gives · (.op o args)) (arithmetic o args forms)) :
    Evaluates t (Expr.op o args).nodes (HasForm t (.op o args))
      (lower limit deeper (.op o args)) := by
  have hcheck : checkArity o args t = .ok () t := by
    unfold checkArity
    cases h : o.arity with
    | none => rfl
    | some k =>
      dsimp only
      rw [if_pos (harity k h)]
      rfl
  have hself : [Expr.op o args] ⊆ (Expr.op o args).nodes := by
    rw [Expr.nodes_eq]
    simp
  rw [lower_arithmetic ho]
  apply Evaluates.bind (P := fun _ => True) (.of_ok hcheck trivial)
  intro _ _
  rw [affines_eq_mapM]
  apply Evaluates.bind (P := (List.Forall₂ t.layout.Gives · args))
  · apply Evaluates.mapM
    intro a ha
    apply (evaluates_affine (hargs a ha)).mono
    intro d hd
    rw [Expr.nodes_eq]
    exact List.mem_cons_of_mem _ (Expr.mem_nodesOfAll.2 ⟨a, ha, hd⟩)
  · intro forms hforms
    apply ((harith forms hforms).mono hself).bind
    intro c hc
    exact .pure (hasForm_ofAffine hc)

theorem evaluates_lower (ht : t.Faithful) (he : e.IsLinear) (hcovers : t.layout.Covers e) :
    Evaluates t e.nodes (HasForm t e) (lower limit deeper e) := by
  induction he with
  | const c => exact .pure ⟨.const c, rfl, fun x => by rw [Affine.eval_const]; rfl⟩
  | var v => exact evaluates_var ht (hcovers v (by simp [Expr.occurrences]))
  | complement hv => exact evaluates_complement ht (hcovers _ (by simp [Expr.occurrences])) hv
  | @neg a _ iha =>
    apply evaluates_op (by simp [Operator.IsArithmetic]) (by simp [Operator.arity])
    · exact List.forall_mem_singleton.2 (iha (hcovers.child (by simp [Expr.children])))
    · rintro _ (_ | ⟨ha, _ | _⟩)
      exact evaluates_neg ht ha
  | @sub a b _ _ iha ihb =>
    apply evaluates_op (by simp [Operator.IsArithmetic]) (by simp [Operator.arity])
    · rw [List.forall_mem_cons, List.forall_mem_singleton]
      exact ⟨iha (hcovers.child (by simp [Expr.children])),
        ihb (hcovers.child (by simp [Expr.children]))⟩
    · rintro _ (_ | ⟨ha, _ | ⟨hb, _ | _⟩⟩)
      exact evaluates_sub ht ha hb
  | @sum args _ ih =>
    apply evaluates_op (by simp [Operator.IsArithmetic]) (by simp [Operator.arity])
    · exact fun a ha => ih a ha (hcovers.child ha)
    · exact fun forms hforms => evaluates_sum ht hforms
  | @mul a b _ _ h iha ihb =>
    apply evaluates_op (by simp [Operator.IsArithmetic]) (by simp [Operator.arity])
    · rw [List.forall_mem_cons, List.forall_mem_singleton]
      exact ⟨iha (hcovers.child (by simp [Expr.children])),
        ihb (hcovers.child (by simp [Expr.children]))⟩
    · rintro _ (_ | ⟨ha, _ | ⟨hb, _ | _⟩⟩)
      exact evaluates_mul ht ha hb h

/-- Every draft that requests lead to, whether they failed or not, has faithful images. In such a
draft a linear expression of registered variables is lowered without touching the draft. Either the
result has a form with exactly the constant and the coefficients of the expression, or the failure
is an overflow at one of its nodes, where an exact number is no word. -/
theorem lowerExpr_linear (config : Config) (he : e.IsLinear) :
    (∀ rs, ((Draft.start config.maxDomainEnumeration).afterRequests config rs).Faithful) ∧
    ∀ t : Draft, t.Faithful → (∀ v ∈ e.vars, t.layout.Has v) →
      (∃ n form, lowerExpr config e t = .ok n t ∧
        Lowering.affineOf n t.program = .ok form t.program ∧ t.layout.Represents form e) ∨
      ∃ d ∈ e.nodes, d.Overflows ∧
        lowerExpr config e t = .error (.untranslatable d (.lowering .overflow)) t := by
  refine ⟨fun rs => (Draft.keepsImages_afterRequests _ rs).faithful (.start _),
    fun t ht hvars => ?_⟩
  have hwithin : ∀ limit levels,
      Evaluates t e.nodes (HasForm t e) (lowerWithin limit levels e) := by
    intro limit levels
    cases levels with
    | zero => exact evaluates_lower ht he (Layout.covers_of_vars hvars)
    | succ levels => exact evaluates_lower ht he (Layout.covers_of_vars hvars)
  rcases hwithin config.maxDecompositionDepth (config.maxDecompositionDepth - t.depth) with
    ⟨n, hrun, form, hform, hgives⟩ | hoverflow
  · exact .inl ⟨n, form, hrun, hform, ht.represents hgives⟩
  · exact .inr hoverflow

/-- In `x + 2 * (1 - b) - x`, the factor written as a difference, the column of `x` cancels. -/
theorem lowerExpr_linear_of_cancelled :
    let x : Var := ⟨⟨.declared 0, .int (-7) 5⟩, "x"⟩
    let b : Var := ⟨⟨.declared 1, .bool⟩, "b"⟩
    let e : Expr := .op .sum [.var x,
      .op .mul [.op .sub [.const 5, .const 3], .complement b], .op .neg [.var x]]
    let config : Config := {}
    let t := (Draft.start config.maxDomainEnumeration).afterRequests config
      [.register x, .register b]
    ∃ n form, lowerExpr config e t = .ok n t ∧
      Lowering.affineOf n t.program = .ok form t.program ∧
      form.constant = 2 ∧ form.coefficient 0 = 0 ∧ form.coefficient 1 = -2 := by
  intro x b e config t
  have hfactor : (Expr.op .sub [.const 5, .const 3]).IsLinear := .sub (.const 5) (.const 3)
  have hproduct : (Expr.op .mul [.op .sub [.const 5, .const 3], .complement b]).IsLinear :=
    .mul hfactor (.complement rfl) (.inl rfl)
  have he : e.IsLinear := by
    apply Expr.IsLinear.sum
    simp only [List.forall_mem_cons]
    exact ⟨.var x, hproduct, .neg (.var x), List.forall_mem_nil _⟩
  obtain ⟨hfaithful, hlinear⟩ := lowerExpr_linear config he
  rcases hlinear t (hfaithful _) (by decide +kernel) with
    ⟨n, form, hrun, hform, hrepresents⟩ | ⟨d, -, -, herror⟩
  · have hx : form.coefficient 0 = e.coefficient x.toVarKey :=
      hrepresents.coefficient x (.int 0) (by decide +kernel)
    have hb : form.coefficient 1 = e.coefficient b.toVarKey :=
      hrepresents.coefficient b (.bool (.ofColumn 1)) (by decide +kernel)
    exact ⟨n, form, hrun, hform, hrepresents.constant.trans (by decide +kernel),
      hx.trans (by decide +kernel), hb.trans (by decide +kernel)⟩
  · have hsucceeds : succeedsWith (lowerExpr config e) t (fun _ _ => true) = true := by
      decide +kernel
    unfold succeedsWith at hsucceeds
    rw [herror] at hsucceeds
    cases hsucceeds

end Translate

end Linearization
