import Linearization.Proofs.Ilp.Choice
import Linearization.Proofs.Ilp.Coerce

/-!
# What a lowering that fails leaves behind

A lowering that fails half-way leaves its first columns and rows behind. `Spares m p x` says that
the assignment `x` survives this: whether `m` succeeds or not, `x` extends to a solution of the
program after it. `m` attempts a constraint (`Attempts`) if it spares every solution that satisfies
the constraint, and imposes the constraint where it succeeds.

The rows of a lowering are put one after the other, so each of them is read with the values that
were chosen for the columns before it: those for which the whole lowering goes through. Whatever
prefix of the rows there is, these values satisfy it. Most steps of a lowering are checks, which
leave the program alone when they fail (`Clean`); only the others have to be looked at.
-/

namespace Linearization.Lowering

open Ilp Literal

variable {α β : Type} {p q : Ilp} {x : Assignment} {N : Assignment → Prop}
  {G : α → Assignment → Prop}

/-- Whatever the outcome of the step, the assignment extends to a solution of the program that is
left behind. -/
def Spares (m : Lowering α) (p : Ilp) (x : Assignment) : Prop :=
  ∃ y, AgreeBelow p.columns.size x y ∧ (stateAfter m p).Solves y

/-- Where the step succeeds, it needs and gives what is said; where it fails, it still spares every
solution that satisfies the need. -/
structure Attempts (m : Lowering α) (p : Ilp) (need : Assignment → Prop)
    (give : α → Assignment → Prop) : Prop where
  succeeds : ∀ a q, m p = .ok a q → p.Extends q need (give a)
  spares : ∀ x, p.Solves x → need x → Spares m p x

/-- A failure leaves no trace. -/
def Clean (m : Lowering α) : Prop := ∀ p error q, m p = .error error q → q = p

/-! ## Steps without a trace -/

namespace Clean

theorem pure (a : α) : Clean (Pure.pure a) := fun _ _ _ h => nomatch h

theorem check {c : Except LoweringError β} {f : β → Lowering α} (hf : ∀ b, Clean (f b)) :
    Clean (liftM c >>= f) := by
  intro p error q h
  cases c with
  | ok b => exact hf b p error q h
  | error error' =>
    cases h
    rfl

theorem checks {γ : Type} {g : β → γ → Except LoweringError β} {f : β → Lowering α}
    (hf : ∀ b, Clean (f b)) (as : List γ) (b : β) :
    Clean (as.foldlM (fun b a => (liftM (g b a) : Lowering β)) b >>= f) := by
  induction as generalizing b with
  | nil => exact hf b
  | cons a as ih =>
    rw [List.foldlM_cons, bind_assoc]
    exact check ih

theorem bounds {e : Affine} {f : Int × Int → Lowering α} (hf : ∀ b, Clean (f b)) :
    Clean (Lowering.bounds e >>= f) := by
  intro p error q h
  unfold Lowering.bounds at h
  rw [bind_assoc, bind_of_ok (show (MonadState.get : Lowering Ilp) p = .ok p p from rfl)] at h
  exact check hf p error q h

theorem of_ok {m : Lowering α} (h : ∀ p, ∃ a q, m p = .ok a q) : Clean m := by
  intro p error q herror
  obtain ⟨a, r, hok⟩ := h p
  rw [hok] at herror
  cases herror

theorem attempts {m : Lowering α} (hm : Clean m)
    (h : ∀ a q, m p = .ok a q → p.Extends q N (G a)) : Attempts m p N G where
  succeeds := h
  spares x hx hn := by
    unfold Spares
    cases hrun : m p with
    | ok a q =>
      rw [stateAfter_of_ok hrun]
      exact (h a q hrun).complete x hx hn
    | error error q =>
      refine ⟨x, .refl _ x, ?_⟩
      unfold stateAfter
      rw [hrun]
      show q.Solves x
      rwa [hm p error q hrun]

end Clean

/-! ## Sequences of steps -/

namespace Spares

theorem of_same {m : Lowering α} (h : stateAfter m p = p) (hx : p.Solves x) : Spares m p x := by
  refine ⟨x, .refl _ x, ?_⟩
  rwa [h]

theorem pure (a : α) (hx : p.Solves x) : Spares (Pure.pure a) p x := of_same rfl hx

theorem throw (error : LoweringError) (hx : p.Solves x) :
    Spares (MonadExcept.throw error : Lowering α) p x := of_same rfl hx

theorem map {m : Lowering α} (h : Spares m p x) (f : α → β) : Spares (f <$> m) p x := by
  unfold Spares
  rwa [stateAfter_map]

/-- The rest starts where a first part that succeeds has ended, with any values of its columns for
which this part goes through. -/
theorem bind {m : Lowering α} {f : α → Lowering β} (hm : Spares m p x)
    (hf : ∀ a q, m p = .ok a q → p.Grows q ∧
      ∃ y, AgreeBelow p.columns.size x y ∧ Spares (f a) q y) : Spares (m >>= f) p x := by
  unfold Spares
  cases hrun : m p with
  | ok a q =>
    rw [stateAfter_bind_of_ok hrun]
    obtain ⟨hgrows, y, hxy, z, hyz, hz⟩ := hf a q hrun
    exact ⟨z, hxy.trans (hyz.mono hgrows.size_le), hz⟩
  | error error q =>
    rw [stateAfter_bind_of_error hrun]
    exact hm

theorem check {c : Except LoweringError α} {f : α → Lowering β} (hx : p.Solves x)
    (hf : ∀ a, c = .ok a → Spares (f a) p x) : Spares (liftM c >>= f) p x := by
  cases hc : c with
  | ok a => exact hf a hc
  | error error => exact throw error hx

theorem get {f : Ilp → Lowering β} (hf : Spares (f p) p x) :
    Spares (MonadState.get >>= f) p x := hf

theorem bounds {e : Affine} {f : Int × Int → Lowering β} (hx : p.Solves x)
    (hf : ∀ lower upper, p.bounds e = .ok (lower, upper) → Spares (f (lower, upper)) p x) :
    Spares (Lowering.bounds e >>= f) p x := by
  unfold Lowering.bounds
  rw [bind_assoc]
  exact get (check hx fun b hb => hf b.1 b.2 hb)

theorem checks {γ : Type} {g : α → γ → Except LoweringError α} {f : α → Lowering β} {as : List γ}
    {a : α} (hx : p.Solves x) (hf : ∀ b, as.foldlM g a = .ok b → Spares (f b) p x) :
    Spares (as.foldlM (fun b c => (liftM (g b c) : Lowering α)) a >>= f) p x := by
  induction as generalizing a with
  | nil => exact hf a rfl
  | cons c as ih =>
    rw [List.foldlM_cons, bind_assoc]
    refine check hx fun b hb => ih fun d hd => hf d ?_
    rw [List.foldlM_cons, hb]
    exact hd

/-- After an attempt, the rest starts in a program where its gift holds. -/
theorem after {m : Lowering α} {f : α → Lowering β} (hm : Attempts m p N G) (hx : p.Solves x)
    (hn : N x) (hf : ∀ a q y, m p = .ok a q → p.Grows q → q.WellFormed →
      AgreeBelow p.columns.size x y → q.Solves y → G a y → Spares (f a) q y) :
    Spares (m >>= f) p x := by
  refine bind (hm.spares x hx hn) fun a q hrun => ?_
  have hextends := hm.succeeds a q hrun
  obtain ⟨y, hxy, hy⟩ := hextends.complete x hx hn
  exact ⟨hextends.grows, y, hxy,
    hf a q y hrun hextends.grows hextends.wellFormed hxy hy (hextends.sound y hy)⟩

theorem auxiliaryBool {purpose : String} {f : Literal → Lowering β} (hp : p.WellFormed)
    (hx : p.Solves x) (P : Prop)
    (hf : ∀ l q y, p.Grows q → q.WellFormed → q.IsTruth l → AgreeBelow p.columns.size x y →
      q.Solves y → (l.Holds y ↔ P) → Spares (f l) q y) :
    Spares (Lowering.auxiliaryBool purpose >>= f) p x := by
  have hrun : Lowering.auxiliaryBool purpose p = .ok (.ofColumn p.columns.size) _ := rfl
  have hgrows := (steady_auxiliaryBool purpose).grows hp hrun
  obtain ⟨y, hxy, hy, hl⟩ := exists_of_auxiliaryBool hp hrun hx P
  obtain ⟨z, hyz, hz⟩ := hf _ _ y hgrows ((steady_auxiliaryBool purpose).wellFormed hp hrun)
    (isTruth_of_auxiliaryBool hrun) hxy hy hl
  refine ⟨z, hxy.trans (hyz.mono hgrows.size_le), ?_⟩
  rwa [stateAfter_bind_of_ok hrun]

theorem auxiliaryInt {purpose : String} {lower upper v : Int} {f : Nat → Lowering β}
    (hp : p.WellFormed) (hx : p.Solves x) (hl : lower ≤ v) (hu : v ≤ upper)
    (hf : ∀ i q y, p.Grows q → q.WellFormed → i < q.columns.size →
      (∀ z, q.Solves z → lower ≤ z i ∧ z i ≤ upper) → AgreeBelow p.columns.size x y →
      q.Solves y → y i = v → Spares (f i) q y) :
    Spares (Lowering.auxiliaryInt purpose lower upper >>= f) p x := by
  have hrun : Lowering.auxiliaryInt purpose lower upper p = .ok p.columns.size _ := rfl
  have hgrows := (steady_auxiliaryInt purpose lower upper).grows hp hrun
  obtain ⟨hcolumn, hrange⟩ := column_of_auxiliaryInt hrun
  obtain ⟨y, hxy, hy, hv⟩ := exists_of_auxiliaryInt hp hrun hx hl hu
  obtain ⟨z, hyz, hz⟩ := hf _ _ y hgrows
    ((steady_auxiliaryInt purpose lower upper).wellFormed hp hrun) hcolumn hrange hxy hy hv
  refine ⟨z, hxy.trans (hyz.mono hgrows.size_le), ?_⟩
  rwa [stateAfter_bind_of_ok hrun]

end Spares

/-! ## Attempts -/

namespace Attempts

variable {m : Lowering α}

theorem congr {C D : Assignment → Prop} (h : Attempts m p C fun _ => C)
    (hCD : ∀ x, p.Solves x → (C x ↔ D x)) : Attempts m p D fun _ => D where
  succeeds a q hrun := Imposes.congr (h.succeeds a q hrun) hCD
  spares x hx hd := h.spares x hx ((hCD x hx).2 hd)

theorem bind {C D : Assignment → Prop} {f : α → Lowering β} (hm : Attempts m p C fun _ => C)
    (hf : ∀ a q, m p = .ok a q → p.Grows q → q.WellFormed → Attempts (f a) q D fun _ => D)
    (hD : Local p.columns.size D) :
    Attempts (m >>= f) p (fun x => C x ∧ D x) fun _ x => C x ∧ D x where
  succeeds b r h := by
    obtain ⟨a, q, hrun, hrest⟩ := bind_eq_ok.1 h
    have hfirst := hm.succeeds a q hrun
    exact Imposes.trans hfirst
      ((hf a q hrun hfirst.grows hfirst.wellFormed).succeeds b r hrest) hD
  spares x hx hn := .after hm hx hn.1 fun a q y hrun hg hq hxy hy _ =>
    (hf a q hrun hg hq).spares y hy ((hD x y hxy).1 hn.2)

theorem forM {f : α → Lowering PUnit} {C : α → Assignment → Prop} {as : List α}
    (hp : p.WellFormed)
    (hstep : ∀ a ∈ as, ∀ q, p.Grows q → q.WellFormed → Attempts (f a) q (C a) fun _ => C a)
    (hlocal : ∀ a ∈ as, Local p.columns.size (C a)) :
    Attempts (as.forM f) p (fun x => ∀ a ∈ as, C a x) fun _ x => ∀ a ∈ as, C a x where
  succeeds _ _ h := imposes_of_forM hp (fun a ha s t u hs hwf hrun =>
    (hstep a ha s hs hwf).succeeds u t hrun) hlocal h
  spares x hx hn := by
    induction as generalizing p x with
    | nil => exact .pure _ hx
    | cons a as ih =>
      rw [List.forall_mem_cons] at hstep hlocal hn
      rw [List.forM_eq_forM, List.forM_cons]
      refine .after (hstep.1 p (.refl p) hp) hx hn.1 fun _ q y _ hg hq hxy hy _ => ?_
      refine ih hq (fun b hb r hr => hstep.2 b hb r (hg.trans hr))
        (fun b hb => (hlocal.2 b hb).mono hg.size_le) y hy fun b hb => ?_
      exact (hlocal.2 b hb x y hxy).1 (hn.2 b hb)

end Attempts

end Linearization.Lowering
