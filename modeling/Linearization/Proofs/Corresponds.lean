import Linearization.Lowered
import Linearization.Proofs.Canonical
import Linearization.Proofs.Matching

/-!
# Values over matched columns

Two programs may have columns that belong together at different places. Two forms correspond if they
have the same value wherever matched columns have the same values; in particular they use matched
columns only. It is the values that are compared and not the terms, whose order is that of the
columns.

What is built alike of corresponding values corresponds again, and what is read off the terms of a
form is the same for a corresponding one (`Affine.Corresponds.asConstant`, `ofAffine`).
-/

namespace Linearization

variable {M N : Matching Nat} {x y : Assignment} {i j : Nat} {k : Int}

/-! ## Assignments -/

/-- Matched columns have the same values. -/
def Matching.Agree (M : Matching Nat) (x y : Assignment) : Prop := ∀ i j, M.Pairs i j → x i = y j

namespace Matching.Agree

theorem anti (h : M ≤ N) (hxy : N.Agree x y) : M.Agree x y := fun i j hij => hxy i j (h i j hij)

theorem flip (h : M.Agree x y) : M.flip.Agree y x := fun i j hij => (h j i hij).symm

/-- The values of the left side can be carried over to the right, where columns without a partner
have any values. -/
theorem exists_right (M : Matching Nat) (x default : Assignment) :
    ∃ y, M.Agree x y ∧ ∀ j, M.FreeRight j → y j = default j := by
  classical
  refine ⟨fun j => if h : ∃ i, M.Pairs i j then x h.choose else default j, fun i j hij => ?_,
    fun j hj => ?_⟩
  · have hex : ∃ i, M.Pairs i j := ⟨i, hij⟩
    dsimp only
    rw [dif_pos hex, M.unique_left hex.choose_spec hij]
  · exact dif_neg (not_exists.2 hj)

theorem exists_left (M : Matching Nat) (y : Assignment) : ∃ x, M.Agree x y := by
  obtain ⟨x, hx, -⟩ := exists_right M.flip y y
  exact ⟨x, hx.flip⟩

theorem update (h : M.Agree x y) (hi : M.FreeLeft i) (v : Int) :
    M.Agree (Function.update x i v) y := by
  intro l j hlj
  rw [Function.update_of_ne]
  · exact h l j hlj
  · rintro rfl
    exact hi j hlj

end Matching.Agree

/-! ## Forms -/

namespace Affine

variable {a b c a' b' c' e e' : Affine}

/-- The forms have the same value wherever matched columns have. -/
def Corresponds (M : Matching Nat) (e e' : Affine) : Prop :=
  ∀ x y, M.Agree x y → e.eval x = e'.eval y

namespace Corresponds

theorem mono (h : M ≤ N) (he : Corresponds M e e') : Corresponds N e e' :=
  fun x y hxy => he x y (hxy.anti h)

theorem flip (h : Corresponds M e e') : Corresponds M.flip e' e :=
  fun x y hxy => (h y x hxy.flip).symm

theorem const (M : Matching Nat) (k : Int) : Corresponds M (.const k) (.const k) := fun x y _ => by
  rw [eval_const, eval_const]

theorem single (h : M.Pairs i j) (k : Int) : Corresponds M (.single i k) (.single j k) :=
  fun x y hxy => by rw [eval_single, eval_single, hxy i j h]

theorem ofColumn (h : M.Pairs i j) : Corresponds M (.ofColumn i) (.ofColumn j) := single h 1

theorem plus (ha : Corresponds M a a') (hb : Corresponds M b b') (h : a.plus b = .ok c)
    (h' : a'.plus b' = .ok c') : Corresponds M c c' := fun x y hxy => by
  rw [eval_of_plus h, eval_of_plus h', ha x y hxy, hb x y hxy]

theorem minus (ha : Corresponds M a a') (hb : Corresponds M b b') (h : a.minus b = .ok c)
    (h' : a'.minus b' = .ok c') : Corresponds M c c' := fun x y hxy => by
  rw [eval_of_minus h, eval_of_minus h', ha x y hxy, hb x y hxy]

theorem scale (he : Corresponds M e e') (h : e.scale k = .ok c) (h' : e'.scale k = .ok c') :
    Corresponds M c c' := fun x y hxy => by
  rw [eval_of_scale h, eval_of_scale h', he x y hxy]

theorem negated (he : Corresponds M e e') (h : e.negated = .ok c) (h' : e'.negated = .ok c') :
    Corresponds M c c' := scale he h h'

theorem foldlM_plus {es es' : List Affine} (hes : List.Forall₂ (Corresponds M) es es')
    (ha : Corresponds M a a') (h : es.foldlM Affine.plus a = .ok c)
    (h' : es'.foldlM Affine.plus a' = .ok c') : Corresponds M c c' := by
  induction hes generalizing a a' with
  | nil =>
    cases h
    cases h'
    exact ha
  | @cons e e' es es' he _ ih =>
    obtain ⟨s, hs, h⟩ := foldlM_cons_eq_ok h
    obtain ⟨s', hs', h'⟩ := foldlM_cons_eq_ok h'
    exact ih (ha.plus he hs hs') h h'

/-- The form on the right has, where its columns are matched, a value that the form on the left has.
-/
theorem exists_eval (h : Corresponds M e e') (y : Assignment) :
    ∃ x, M.Agree x y ∧ e.eval x = e'.eval y := by
  obtain ⟨x, hxy⟩ := Matching.Agree.exists_left M y
  exact ⟨x, hxy, h x y hxy⟩

theorem asConstant_of_some (h : Corresponds M e e') (hk : e.asConstant = some k) :
    e'.asConstant = some k := by
  refine asConstant_eq_some_iff.2 fun y => ?_
  obtain ⟨x, -, heval⟩ := h.exists_eval y
  rw [← heval, eval_of_asConstant hk]

theorem asConstant (h : Corresponds M e e') : e.asConstant = e'.asConstant := by
  cases hk : e.asConstant with
  | some k => exact (h.asConstant_of_some hk).symm
  | none =>
    cases hk' : e'.asConstant with
    | none => rfl
    | some k => exact hk.symm.trans (h.flip.asConstant_of_some hk')

theorem eval_update (h : Corresponds M e e') (hi : M.FreeLeft i) (x : Assignment) (v : Int) :
    e.eval (Function.update x i v) = e.eval x := by
  obtain ⟨y, hxy, -⟩ := Matching.Agree.exists_right M x x
  rw [h _ y (hxy.update hi v), h x y hxy]

theorem not_freeLeft_of_asColumn (h : Corresponds M e e') (hi : e.asColumn = some i) :
    ¬ M.FreeLeft i := by
  intro hfree
  have hchange := h.eval_update hfree (fun _ => 0) 1
  rw [eval_of_asColumn hi, eval_of_asColumn hi, Function.update_self] at hchange
  cases hchange

theorem asColumn (h : Corresponds M e e') (hi : e.asColumn = some i) :
    ∃ j, M.Pairs i j ∧ e'.asColumn = some j := by
  obtain ⟨j, hij⟩ := not_forall_not.1 (h.not_freeLeft_of_asColumn hi)
  refine ⟨j, hij, asColumn_eq_some_iff.2 fun y => ?_⟩
  obtain ⟨x, hxy, heval⟩ := h.exists_eval y
  rw [← heval, eval_of_asColumn hi, hxy i j hij]

end Corresponds

end Affine

/-! ## Literals and relations -/

namespace Literal

variable {l l' : Literal}

/-- The literals are of matched columns and have the same sign. -/
def Corresponds (M : Matching Nat) (l l' : Literal) : Prop :=
  l.positive = l'.positive ∧ M.Pairs l.column l'.column

namespace Corresponds

theorem mono (h : M ≤ N) (hl : Corresponds M l l') : Corresponds N l l' := ⟨hl.1, h _ _ hl.2⟩

theorem ofColumn (h : M.Pairs i j) : Corresponds M (.ofColumn i) (.ofColumn j) := ⟨rfl, h⟩

theorem negate (h : Corresponds M l l') : Corresponds M l.negate l'.negate :=
  ⟨congrArg Bool.not h.1, h.2⟩

theorem toAffine (h : Corresponds M l l') : l.toAffine.Corresponds M l'.toAffine :=
  fun x y hxy => by rw [eval_toAffine, eval_toAffine, h.1, hxy _ _ h.2]

end Corresponds

theorem exists_of_corresponds_toAffine {e' : Affine} (h : l.toAffine.Corresponds M e') :
    ∃ l', Corresponds M l l' ∧ ∀ y : Assignment, e'.eval y = l'.toAffine.eval y := by
  have hpartner : ¬ M.FreeLeft l.column := by
    intro hfree
    have hchange := h.eval_update hfree (fun _ => 0) 1
    rw [eval_toAffine, eval_toAffine, Function.update_self] at hchange
    split at hchange <;> omega
  obtain ⟨j, hj⟩ := not_forall_not.1 hpartner
  have hl' : Corresponds M l ⟨j, l.positive⟩ := ⟨rfl, hj⟩
  refine ⟨_, hl', fun y => ?_⟩
  obtain ⟨x, hxy, heval⟩ := h.exists_eval y
  rw [← heval, hl'.toAffine x y hxy]

end Literal

namespace Relation

variable {r r' : Relation} {d d' : Affine}

/-- The relations have the same operator and corresponding sides. -/
structure Corresponds (M : Matching Nat) (r r' : Relation) : Prop where
  lhs : r.lhs.Corresponds M r'.lhs
  op : r.op = r'.op
  rhs : r.rhs.Corresponds M r'.rhs

namespace Corresponds

theorem mono (h : M ≤ N) (hr : Corresponds M r r') : Corresponds N r r' :=
  ⟨hr.lhs.mono h, hr.op, hr.rhs.mono h⟩

theorem difference (h : Corresponds M r r') (hd : r.difference = .ok d)
    (hd' : r'.difference = .ok d') : d.Corresponds M d' := h.lhs.minus h.rhs hd hd'

end Corresponds

end Relation

/-! ## Lowered values -/

namespace Lowered

variable {v v' : Lowered} {vs vs' : List Lowered}

/-- The values are of the same kind and made of corresponding parts. -/
inductive Corresponds (M : Matching Nat) : Lowered → Lowered → Prop where
  | const (c : Int) : Corresponds M (.const c) (.const c)
  | literal {l l' : Literal} (h : l.Corresponds M l') : Corresponds M (.literal l) (.literal l')
  | column {i j : Nat} (h : M.Pairs i j) : Corresponds M (.column i) (.column j)
  | affine {e e' : Affine} (h : e.Corresponds M e') : Corresponds M (.affine e) (.affine e')
  | relation {r r' : Relation} (h : r.Corresponds M r') :
    Corresponds M (.relation r) (.relation r')
  | sequence {vs vs' : List Lowered} (h : List.Forall₂ (Corresponds M) vs vs') :
    Corresponds M (.sequence vs) (.sequence vs')

mutual

theorem Corresponds.mono (hle : M ≤ N) : ∀ {v v' : Lowered}, Corresponds M v v' →
    Corresponds N v v'
  | _, _, .const c => .const c
  | _, _, .literal h => .literal (h.mono hle)
  | _, _, .column h => .column (hle _ _ h)
  | _, _, .affine h => .affine (h.mono hle)
  | _, _, .relation h => .relation (h.mono hle)
  | _, _, .sequence h => .sequence (Corresponds.monoAll hle h)

theorem Corresponds.monoAll (hle : M ≤ N) : ∀ {vs vs' : List Lowered},
    List.Forall₂ (Corresponds M) vs vs' → List.Forall₂ (Corresponds N) vs vs'
  | _, _, .nil => .nil
  | _, _, .cons h hs => .cons (h.mono hle) (Corresponds.monoAll hle hs)

end

theorem Corresponds.ofAffine {e e' : Affine} (h : e.Corresponds M e') :
    Corresponds M (ofAffine e) (ofAffine e') := by
  unfold Lowered.ofAffine
  rw [← h.asConstant]
  cases e.asConstant with
  | some k => exact .const k
  | none =>
    cases hi : e.asColumn with
    | some i =>
      obtain ⟨j, hij, hj⟩ := h.asColumn hi
      rw [hj]
      exact .column hij
    | none =>
      cases hj : e'.asColumn with
      | none => exact .affine h
      | some j =>
        obtain ⟨i, -, hi'⟩ := h.flip.asColumn hj
        rw [hi] at hi'
        cases hi'

theorem Corresponds.items (h : Corresponds M v v') :
    List.Forall₂ (Corresponds M) v.items v'.items := by
  cases h with
  | sequence h => exact h
  | const c => exact .cons (.const c) .nil
  | literal h => exact .cons (.literal h) .nil
  | column h => exact .cons (.column h) .nil
  | affine h => exact .cons (.affine h) .nil
  | relation h => exact .cons (.relation h) .nil

end Lowered

end Linearization
