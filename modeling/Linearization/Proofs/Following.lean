import Linearization.Proofs.Run
import Mathlib.Data.List.Forall2
import Mathlib.Order.Defs.PartialOrder

/-!
# Runs that follow other runs

Two steps run in two states, which need not be the same but correspond in some way `S w`. What
corresponds to what is recorded in `w`, and the further both runs get the more is recorded. `Follows
S E w V m m'` says: whenever `m` succeeds, `m'` succeeds too, with a result that corresponds to that
of `m` and in a state that corresponds to that after `m`, unless it fails for a reason of the kind
`E`.

Corresponding results stay so as more is recorded, which is what lets a sequence of steps use what
an earlier one has returned (`Monotonic`).
-/

namespace Linearization

variable {ε σ τ W α α' β β' : Type} [Preorder W] {S : W → σ → τ → Prop} {E : ε → Prop} {w w' : W}
  {V : W → α → α' → Prop} {U : W → β → β' → Prop}

/-- Whenever the first step succeeds, the second one does so correspondingly or fails for a reason
of the kind `E`. -/
def Follows (S : W → σ → τ → Prop) (E : ε → Prop) (w : W) (V : W → α → α' → Prop)
    (m : EStateM ε σ α) (m' : EStateM ε τ α') : Prop :=
  ∀ ⦃s s' a t⦄, S w s s' → m s = .ok a t →
    (∃ e t', m' s' = .error e t' ∧ E e) ∨
      ∃ w' a' t', m' s' = .ok a' t' ∧ w ≤ w' ∧ S w' t t' ∧ V w' a a'

/-- What corresponds keeps corresponding as more is recorded. -/
def Monotonic (V : W → α → α' → Prop) : Prop := ∀ ⦃w w'⦄, w ≤ w' → ∀ ⦃a a'⦄, V w a a' → V w' a a'

theorem Monotonic.forall₂ (hV : Monotonic V) : Monotonic fun w => List.Forall₂ (V w) :=
  fun _ _ hw _ _ h => h.imp fun _ _ h => hV hw h

namespace Follows

variable {m : EStateM ε σ α} {m' : EStateM ε τ α'}

theorem pure {a : α} {a' : α'} (h : V w a a') :
    Follows S E w V (Pure.pure a) (Pure.pure a' : EStateM ε τ α') := by
  intro s s' b t hS hrun
  obtain ⟨rfl, rfl⟩ := pure_eq_ok.1 hrun
  exact .inr ⟨w, a', s', rfl, le_refl w, hS, h⟩

theorem throw (e : ε) : Follows S E w V (MonadExcept.throw e : EStateM ε σ α) m' :=
  fun _ _ _ _ _ hrun => (throw_eq_ok.1 hrun).elim

theorem bind {f : α → EStateM ε σ β} {f' : α' → EStateM ε τ β'} (hm : Follows S E w V m m')
    (hf : ∀ w', w ≤ w' → ∀ a a', V w' a a' → Follows S E w' U (f a) (f' a')) :
    Follows S E w U (m >>= f) (m' >>= f') := by
  intro s s' b t hS hrun
  obtain ⟨a, r, hrun, hrest⟩ := bind_eq_ok.1 hrun
  rcases hm hS hrun with ⟨e, r', hfail, he⟩ | ⟨w₁, a', r', hrun', hw₁, hS₁, ha⟩
  · exact .inl ⟨e, r', bind_of_error hfail, he⟩
  rw [bind_of_ok hrun']
  rcases hf w₁ hw₁ a a' ha hS₁ hrest with hfail | ⟨w₂, b', t', hrest', hw₂, hS₂, hb⟩
  · exact .inl hfail
  · exact .inr ⟨w₂, b', t', hrest', le_trans hw₁ hw₂, hS₂, hb⟩

theorem map {f : α → β} {f' : α' → β'} (hm : Follows S E w V m m')
    (hf : ∀ w', w ≤ w' → ∀ a a', V w' a a' → U w' (f a) (f' a')) :
    Follows S E w U (f <$> m) (f' <$> m') := by
  rw [map_eq_pure_bind, map_eq_pure_bind]
  exact hm.bind fun w' hw' a a' ha => pure (hf w' hw' a a' ha)

/-- What follows a step that has succeeded fails for reasons of the kind only. -/
theorem failsOnly (hm : Follows S E w V m m') {s t : σ} {s' : τ} {a : α} (hS : S w s s')
    (hrun : m s = .ok a t) : FailsOnly E m' s' := by
  intro e t' hfail
  rcases hm hS hrun with ⟨e', r', hfail', he⟩ | ⟨w', a', r', hrun', -, -, -⟩
  · cases hfail.symm.trans hfail'
    exact he
  · cases hfail.symm.trans hrun'

theorem of_ok (hm : Follows S E w V m m') {s t : σ} {s' t' : τ} {a : α} {a' : α'} (hS : S w s s')
    (hrun : m s = .ok a t) (hrun' : m' s' = .ok a' t') : ∃ w', w ≤ w' ∧ S w' t t' ∧ V w' a a' := by
  rcases hm hS hrun with ⟨e, r', hfail, -⟩ | ⟨w', b', r', hrun'', hw', hS', ha⟩
  · cases hfail.symm.trans hrun'
  · cases hrun''.symm.trans hrun'
    exact ⟨w', hw', hS', ha⟩

theorem get {f : σ → EStateM ε σ α} {f' : τ → EStateM ε τ α'}
    (hf : ∀ s s', S w s s' → Follows S E w V (f s) (f' s')) :
    Follows S E w V (MonadState.get >>= f) (MonadState.get >>= f') :=
  fun s s' _ _ hS hrun => hf s s' hS hS hrun

section Lists

variable {γ γ' : Type} {R : W → γ → γ' → Prop} {f : γ → EStateM ε σ α} {f' : γ' → EStateM ε τ α'}
  {as : List γ} {as' : List γ'}

theorem mapM (hV : Monotonic V) (hR : Monotonic R) (has : List.Forall₂ (R w) as as')
    (hf : ∀ w', w ≤ w' → ∀ a a', R w' a a' → Follows S E w' V (f a) (f' a')) :
    Follows S E w (fun w => List.Forall₂ (V w)) (as.mapM f) (as'.mapM f') := by
  induction as generalizing as' w with
  | nil =>
    cases has
    exact pure .nil
  | cons a as ih =>
    cases has with
    | cons ha has =>
      rw [List.mapM_cons, List.mapM_cons]
      refine (hf w (le_refl w) _ _ ha).bind fun w₁ hw₁ b b' hb => ?_
      refine (ih (hR.forall₂ hw₁ has) fun w' hw' => hf w' (le_trans hw₁ hw')).bind
        fun w₂ hw₂ bs bs' hbs => ?_
      exact pure (.cons (hV hw₂ hb) hbs)

end Lists

end Follows

end Linearization
