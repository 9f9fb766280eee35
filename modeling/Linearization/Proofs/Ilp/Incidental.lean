import Linearization.Proofs.Ilp.Composed
import Linearization.Proofs.Ilp.Faults

/-!
# Failures that say nothing about the construct

A lowering may refuse its construct: a divisor may be zero, a domain is too large. Or it fails on
its way: a number leaves its range, or a column is missing. The lowerings that only add rows, and
columns of their own, never refuse anything (`Lowering.Quiet`); the ones that give a value may.
-/

namespace Linearization

/-- The failure is not a refusal of the construct. That a list is too long for an address space is
one: it depends on the bounds of a form, as that a domain is too large does. -/
inductive LoweringError.IsIncidental : LoweringError → Prop where
  | overflow : IsIncidental .overflow
  | fault {f : Fault} (h : ∀ size, f ≠ .capacity size) : IsIncidental (.fault f)

namespace Lowering

open Ilp

variable {α β : Type} {e target : Affine} {l : Literal} {ls guards : List Literal}
  {forms items : List Affine} {p q : Ilp}

/-- Whenever the check fails, it does so incidentally. -/
def ChecksOnly (x : Except LoweringError α) : Prop := ∀ e, x = .error e → e.IsIncidental

/-- Whenever the lowering fails, it does so incidentally. -/
def Incidental (m : Lowering α) : Prop := ∀ p, FailsOnly LoweringError.IsIncidental m p

/-- The lowering appends to the program what it needs, and refuses nothing. -/
structure Quiet (m : Lowering α) : Prop where
  steady : Steady m
  composed : Composed m
  incidental : Incidental m

theorem ChecksOnly.of_onlyOverflows {x : Except LoweringError α} (h : OnlyOverflows x) :
    ChecksOnly x := by
  intro e he
  rw [h e he]
  exact .overflow

theorem checksOnly_plain (v : Int) : ChecksOnly (Word.plain v) := by
  intro e he
  unfold Word.plain at he
  split at he
  · cases he
  · cases he
    exact .fault nofun

theorem checksOnly_boundsFrom (p : Ilp) (ts : List Term) (interval : Int × Int) :
    ChecksOnly (p.boundsFrom ts interval) := by
  induction ts generalizing interval with
  | nil => exact nofun
  | cons t ts ih =>
    intro e he
    obtain ⟨lower, upper⟩ := interval
    rw [boundsFrom] at he
    split at he
    · cases he
      exact .fault fun size h => by cases h
    dsimp only at he
    split at he
    · exact ih _ e he
    · cases he
      exact .overflow

theorem checksOnly_bounds (p : Ilp) (e : Affine) : ChecksOnly (p.bounds e) := by
  intro error he
  unfold Ilp.bounds at he
  cases hfrom : p.boundsFrom e.terms (e.constant, e.constant) with
  | error error' =>
    rw [hfrom] at he
    cases he
    exact checksOnly_boundsFrom p _ _ error hfrom
  | ok b =>
    rw [hfrom] at he
    refine ChecksOnly.of_onlyOverflows ?_ error he
    exact (OnlyOverflows.checked _).bind fun _ _ => (OnlyOverflows.checked _).bind fun _ _ => .ok _

theorem checksOnly_literalView (p : Ilp) (e : Affine) : ChecksOnly (p.literalView e) := by
  intro error he
  unfold literalView at he
  split at he
  · split at he
    · cases he
      exact .fault nofun
    · split at he
      · cases he
      split at he
      · cases he
      split at he <;> cases he
  · cases he

theorem checksOnly_truth (p : Ilp) (r : Relation) : ChecksOnly (p.truth r) := by
  intro error he
  unfold truth at he
  cases hd : r.difference with
  | error error' =>
    rw [hd] at he
    cases he
    exact ChecksOnly.of_onlyOverflows (.difference r) error hd
  | ok d =>
    rw [hd] at he
    cases hb : p.bounds d with
    | error error' =>
      simp only [bind, Except.bind, hb] at he
      cases he
      exact checksOnly_bounds p d error hb
    | ok b =>
      simp only [bind, Except.bind, hb] at he
      cases he

namespace Incidental

theorem pure (a : α) : Incidental (Pure.pure a) := fun p => .pure a p

theorem bind {m : Lowering α} {f : α → Lowering β} (hm : Incidental m)
    (hf : ∀ a, Incidental (f a)) : Incidental (m >>= f) :=
  fun p => (hm p).bind fun a q _ => hf a q

theorem liftM {x : Except LoweringError α} (hx : ChecksOnly x) :
    Incidental (MonadLiftT.monadLift x : Lowering α) := by
  show Incidental (ofExcept x)
  cases x with
  | ok a => exact pure a
  | error e => exact fun p => .throw (hx e rfl) p

theorem check {x : Except LoweringError α} {f : α → Lowering β} (hx : OnlyOverflows x)
    (hf : ∀ a, Incidental (f a)) : Incidental ((MonadLiftT.monadLift x : Lowering α) >>= f) :=
  (liftM (.of_onlyOverflows hx)).bind hf

theorem plain {v : Int} {f : Int → Lowering β} (hf : ∀ a, Incidental (f a)) :
    Incidental ((MonadLiftT.monadLift (Word.plain v) : Lowering Int) >>= f) :=
  (liftM (checksOnly_plain v)).bind hf

theorem get {f : Ilp → Lowering β} (hf : ∀ p, Incidental (f p)) :
    Incidental (MonadState.get >>= f) := fun p => hf p p

theorem bounds {f : Int × Int → Lowering β} (hf : ∀ b, Incidental (f b)) :
    Incidental (Lowering.bounds e >>= f) :=
  (get fun p => liftM (checksOnly_bounds p e)).bind hf

theorem of_ok {m : Lowering α} (h : ∀ p, ∃ a q, m p = .ok a q) : Incidental m := by
  intro p
  obtain ⟨a, q, hrun⟩ := h p
  exact .of_ok hrun

theorem addRow (r : Row) : Incidental (Lowering.addRow r) := of_ok fun _ => ⟨_, _, rfl⟩

theorem auxiliaryBool (purpose : String) : Incidental (Lowering.auxiliaryBool purpose) :=
  of_ok fun _ => ⟨_, _, rfl⟩

theorem trueLiteral : Incidental Lowering.trueLiteral := of_ok fun p => by
  cases h : p.trueColumn with
  | some i => exact ⟨_, _, trueLiteral_of_some h⟩
  | none => exact ⟨_, _, trueLiteral_of_none h⟩

theorem forM {f : α → Lowering PUnit} (hf : ∀ a, Incidental (f a)) :
    ∀ as : List α, Incidental (as.forM f)
  | [] => pure _
  | a :: as => by
    rw [List.forM_eq_forM, List.forM_cons]
    exact (hf a).bind fun _ => forM hf as

theorem checks {γ : Type} {g : β → α → Except LoweringError β} {f : β → Lowering γ}
    (hg : ∀ b a, OnlyOverflows (g b a)) (hf : ∀ b, Incidental (f b)) (as : List α) (b : β) :
    Incidental
      (as.foldlM (fun b a => (MonadLiftT.monadLift (g b a) : Lowering β)) b >>= f) := by
  induction as generalizing b with
  | nil => exact hf b
  | cons a as ih =>
    rw [List.foldlM_cons, bind_assoc]
    exact check (hg b a) fun c => ih c

end Incidental

open Incidental

/-! ## Guarded relations -/

theorem incidental_addContradiction : Incidental addContradiction :=
  Incidental.trueLiteral.bind fun _ => Incidental.addRow _

theorem incidental_addUnlessImplied (implied : Int → Int → Bool) (least : Int → Option Int)
    (e : Affine) : Incidental (addUnlessImplied implied least e) := by
  refine .bounds fun b => ?_
  dsimp only
  split
  · exact .pure _
  split
  · exact incidental_addContradiction
  · exact .check (.checked _) fun _ => .addRow _

theorem incidental_enforceNonpositive (e : Affine) (guards : List Literal) :
    Incidental (enforceNonpositive e guards) := by
  refine .bounds fun b => ?_
  dsimp only
  split
  · exact .pure _
  · exact .check (.relax _ _ _) fun d => incidental_addUnlessImplied _ _ d

theorem incidental_enforceNonpositive_plus (e : Affine) (guards : List Literal) :
    Incidental (do enforceNonpositive (← e.plus (.const 1)) guards) :=
  .check (.plus _ _) fun d => incidental_enforceNonpositive d guards

theorem incidental_enforceNonzero (e : Affine) (guards : List Literal) :
    Incidental (enforceNonzero e guards) := by
  refine .bounds fun b => ?_
  dsimp only
  split
  · exact .pure _
  split
  · exact .check (.scale _ _) fun n => incidental_enforceNonpositive_plus n guards
  split
  · exact incidental_enforceNonpositive_plus e guards
  · exact (Incidental.auxiliaryBool _).bind fun below => .check (.plus _ _) fun d =>
      (incidental_enforceNonpositive d _).bind fun _ => .check (.scale _ _) fun n =>
        incidental_enforceNonpositive_plus n _

theorem incidental_enforce (r : Relation) (guards : List Literal) :
    Incidental (enforce r guards) := by
  refine .check (.difference r) fun d => ?_
  cases r.op with
  | le => exact incidental_enforceNonpositive d guards
  | lt => exact incidental_enforceNonpositive_plus d guards
  | ge => exact .check (.scale _ _) fun n => incidental_enforceNonpositive n guards
  | gt => exact .check (.scale _ _) fun n => incidental_enforceNonpositive_plus n guards
  | eq =>
    dsimp only
    split
    · exact incidental_addUnlessImplied _ _ d
    · exact (incidental_enforceNonpositive d guards).bind fun _ =>
        .check (.scale _ _) fun n => incidental_enforceNonpositive n guards
  | ne => exact incidental_enforceNonzero d guards

theorem quiet_enforce (r : Relation) (guards : List Literal) : Quiet (enforce r guards) :=
  ⟨steady_enforce r guards, composed_enforce r guards, incidental_enforce r guards⟩

theorem incidental_reify (r : Relation) : Incidental (reify r) := by
  refine .get fun p => (Incidental.liftM (checksOnly_truth p r)).bind fun value => ?_
  cases value with
  | some value => exact Incidental.trueLiteral.bind fun _ => .pure _
  | none =>
    exact (Incidental.auxiliaryBool _).bind fun l => (incidental_enforce _ _).bind fun _ =>
      (incidental_enforce _ _).bind fun _ => .pure l

theorem incidental_addClause (ls guards : List Literal) : Incidental (addClause ls guards) :=
  .checks (fun _ _ => .minus _ _) (fun e => incidental_enforceNonpositive e guards) ls _

theorem quiet_addClause (ls guards : List Literal) : Quiet (addClause ls guards) :=
  ⟨steady_addClause ls guards, composed_addClause ls guards, incidental_addClause ls guards⟩

/-! ## Encodings and choices -/

theorem incidental_encodeFrom (count : Nat) (value : Int) (total channel : Affine) :
    Incidental (encodeFrom count value total channel) := by
  induction count generalizing value total channel with
  | zero => exact .pure _
  | succ count ih =>
    exact (Incidental.auxiliaryBool _).bind fun l => .check (.plus _ _) fun _ =>
      .check (.scale _ _) fun _ => .check (.minus _ _) fun _ => (ih _ _ _).bind fun _ => .pure _

theorem incidental_makeEncoding (e : Affine) (lower upper : Int) :
    Incidental (makeEncoding e lower upper) :=
  (incidental_encodeFrom _ _ _ _).bind fun _ => .check (.minus _ _) fun d =>
    (incidental_addUnlessImplied _ _ d).bind fun _ =>
      (incidental_addUnlessImplied _ _ _).bind fun _ =>
        (Incidental.of_ok fun _ => ⟨_, _, rfl⟩).bind fun _ => .pure _

theorem incidental_addWitnesses (target : Affine) (op : Comparison) (forms : List Affine) :
    Incidental (addWitnesses target op forms) := by
  induction forms with
  | nil => exact .pure _
  | cons e es ih =>
    exact (incidental_enforce _ []).bind fun _ => (Incidental.auxiliaryBool _).bind fun witness =>
      (incidental_enforce _ [witness]).bind fun _ => ih.bind fun _ => .pure _

theorem quiet_addExtremum (target : Affine) (forms : List Affine) (op : Comparison) :
    Quiet (addExtremum target forms op) :=
  ⟨steady_addExtremum target forms op, composed_addExtremum target forms op,
    (incidental_addWitnesses target op forms).bind fun ls => incidental_addClause ls []⟩

theorem incidental_selectEach (items : List Affine) (target : Affine) (guards : List Literal)
    (encoding : Encoding) : Incidental (selectEach items target guards encoding) := by
  induction encoding with
  | nil => exact .pure _
  | cons entry rest ih =>
    obtain ⟨position, selected⟩ := entry
    rw [selectEach]
    split
    · exact (incidental_enforce _ _).bind fun _ => ih
    · exact (incidental_addClause _ _).bind fun _ => ih

theorem quiet_selectEach (items : List Affine) (target : Affine) (guards : List Literal)
    (encoding : Encoding) : Quiet (selectEach items target guards encoding) :=
  ⟨steady_selectEach items target guards encoding, composed_selectEach items target guards encoding,
    incidental_selectEach items target guards encoding⟩

/-! ## Arithmetic -/

theorem incidental_multiplyEach (result : Nat) (e : Affine) (encoding : Encoding) :
    Incidental (multiplyEach result e encoding) := by
  induction encoding with
  | nil => exact .pure _
  | cons entry rest ih =>
    exact .check (.scale _ _) fun _ => (incidental_enforce _ _).bind fun _ => ih

theorem quiet_multiplyEach (result : Nat) (e : Affine) (encoding : Encoding) :
    Quiet (multiplyEach result e encoding) :=
  ⟨steady_multiplyEach result e encoding, composed_multiplyEach result e encoding,
    incidental_multiplyEach result e encoding⟩

theorem incidental_divideEach (a : Affine) (quotient remainder : Nat)
    (cases : List (Int × List Literal)) : Incidental (divideEach a quotient remainder cases) := by
  induction cases with
  | nil => exact .pure _
  | cons entry rest ih =>
    exact .check (.plus _ _) fun _ => (incidental_enforce _ _).bind fun _ =>
      .check (.checkedAbs _) fun _ => .plain fun _ => (incidental_enforce _ _).bind fun _ =>
        .plain fun _ => (incidental_enforce _ _).bind fun _ => ih

theorem quiet_divideEach (a : Affine) (quotient remainder : Nat)
    (cases : List (Int × List Literal)) : Quiet (divideEach a quotient remainder cases) :=
  ⟨steady_divideEach a quotient remainder cases, composed_divideEach a quotient remainder cases,
    incidental_divideEach a quotient remainder cases⟩

theorem incidental_alignSign (a : Affine) (lower upper : Int) (remainder : Nat) :
    Incidental (alignSign a lower upper remainder) := by
  unfold alignSign
  split
  · exact (incidental_reify _).bind fun l => (incidental_enforce _ _).bind fun _ =>
      incidental_enforce _ _
  · exact .pure _

theorem quiet_alignSign (a : Affine) (lower upper : Int) (remainder : Nat) :
    Quiet (alignSign a lower upper remainder) :=
  ⟨steady_alignSign a lower upper remainder, composed_alignSign a lower upper remainder,
    incidental_alignSign a lower upper remainder⟩

end Lowering

end Linearization
