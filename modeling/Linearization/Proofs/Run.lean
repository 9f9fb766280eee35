/-!
# Runs of steps

A step of a lowering or of a translation changes a state and may fail; what it changed before
failing stays. The first lemmas read a successful run of a composed step as runs of its parts.
`Keeps R m` says that the state after `m`, failed or not, is in the relation `R` to the state
before; for a reflexive and transitive `R` this passes from the parts of a step to the whole.
`FailsOnly E m s` says of a failure of `m` in the state `s` what kind of failure it is.
-/

namespace Linearization

variable {ε σ α β : Type}

section Success

variable {s t : σ} {a : α} {b : β}

theorem bind_eq_ok {m : EStateM ε σ α} {f : α → EStateM ε σ β} :
    (m >>= f) s = .ok b t ↔ ∃ a q, m s = .ok a q ∧ f a q = .ok b t := by
  show EStateM.bind m f s = _ ↔ _
  unfold EStateM.bind
  cases m s with
  | ok a q =>
    constructor
    · exact fun h => ⟨a, q, rfl, h⟩
    · rintro ⟨_, _, h, h'⟩
      cases h
      exact h'
  | error e q => simp

theorem map_eq_ok {m : EStateM ε σ α} {f : α → β} :
    (f <$> m) s = .ok b t ↔ ∃ a, m s = .ok a t ∧ f a = b := by
  show EStateM.map f m s = _ ↔ _
  unfold EStateM.map
  cases m s with
  | ok a q =>
    constructor
    · rintro h
      cases h
      exact ⟨a, rfl, rfl⟩
    · rintro ⟨_, h, rfl⟩
      cases h
      rfl
  | error e q => simp

theorem pure_eq_ok {a' : α} :
    (pure a : EStateM ε σ α) s = .ok a' t ↔ a = a' ∧ s = t := by
  show EStateM.Result.ok a s = .ok a' t ↔ _
  simp

theorem throw_eq_ok {e : ε} : (throw e : EStateM ε σ α) s = .ok a t ↔ False := by
  show EStateM.Result.error e s = .ok a t ↔ _
  simp

theorem get_eq_ok {r : σ} : (get : EStateM ε σ σ) s = .ok r t ↔ s = r ∧ s = t := by
  show EStateM.Result.ok s s = .ok r t ↔ _
  simp

theorem modify_eq_ok {f : σ → σ} {u : PUnit} :
    (modify f : EStateM ε σ PUnit) s = .ok u t ↔ f s = t := by
  show EStateM.Result.ok PUnit.unit (f s) = .ok u t ↔ _
  simp

theorem mapM_cons_eq_ok {f : α → EStateM ε σ β} {as : List α} {bs : List β}
    (h : (a :: as).mapM f s = .ok bs t) :
    ∃ b q rest, f a s = .ok b q ∧ as.mapM f q = .ok rest t ∧ bs = b :: rest := by
  rw [List.mapM_cons] at h
  obtain ⟨b, q, h₁, h⟩ := bind_eq_ok.1 h
  obtain ⟨rest, r, h₂, h⟩ := bind_eq_ok.1 h
  obtain ⟨rfl, rfl⟩ := pure_eq_ok.1 h
  exact ⟨b, q, rest, h₁, h₂, rfl⟩

theorem length_of_mapM {f : α → EStateM ε σ β} {as : List α} {bs : List β}
    (h : as.mapM f s = .ok bs t) : bs.length = as.length := by
  induction as generalizing s bs with
  | nil =>
    obtain ⟨rfl, -⟩ := pure_eq_ok.1 h
    rfl
  | cons a as ih =>
    obtain ⟨b, q, rest, -, hrest, rfl⟩ := mapM_cons_eq_ok h
    rw [List.length_cons, List.length_cons, ih hrest]

end Success

section Sequence

variable {m : EStateM ε σ α} {f : α → EStateM ε σ β} {s t : σ}

theorem bind_of_ok {a : α} (h : m s = .ok a t) : (m >>= f) s = f a t := by
  show EStateM.bind m f s = f a t
  unfold EStateM.bind
  rw [h]

theorem bind_of_error {e : ε} (h : m s = .error e t) : (m >>= f) s = .error e t := by
  show EStateM.bind m f s = .error e t
  unfold EStateM.bind
  rw [h]

theorem get_bind {g : σ → EStateM ε σ β} : (get >>= g) s = g s s := rfl

end Sequence

/-- The state that a step leaves behind, whether it failed or not. -/
def stateAfter (m : EStateM ε σ α) (s : σ) : σ :=
  match m s with
  | .ok _ t => t
  | .error _ t => t

theorem stateAfter_of_ok {m : EStateM ε σ α} {s t : σ} {a : α} (h : m s = .ok a t) :
    stateAfter m s = t := by
  unfold stateAfter
  rw [h]

theorem stateAfter_bind_of_ok {m : EStateM ε σ α} {f : α → EStateM ε σ β} {s t : σ} {a : α}
    (h : m s = .ok a t) : stateAfter (m >>= f) s = stateAfter (f a) t := by
  unfold stateAfter
  rw [bind_of_ok h]

theorem stateAfter_bind_of_error {m : EStateM ε σ α} {f : α → EStateM ε σ β} {s t : σ} {e : ε}
    (h : m s = .error e t) : stateAfter (m >>= f) s = stateAfter m s := by
  unfold stateAfter
  rw [bind_of_error h, h]

theorem stateAfter_map (m : EStateM ε σ α) (f : α → β) (s : σ) :
    stateAfter (f <$> m) s = stateAfter m s := by
  unfold stateAfter
  show (match EStateM.map f m s with | .ok _ t => t | .error _ t => t) = _
  unfold EStateM.map
  cases m s <;> rfl

/-- The step succeeds, and its result and the state after pass the test. -/
def succeedsWith (m : EStateM ε σ α) (s : σ) (test : α → σ → Bool) : Bool :=
  match m s with
  | .ok a t => test a t
  | .error _ _ => false

theorem exists_of_succeedsWith {m : EStateM ε σ α} {s : σ} {test : α → σ → Bool}
    (h : succeedsWith m s test = true) : ∃ a t, m s = .ok a t ∧ test a t = true := by
  unfold succeedsWith at h
  cases hs : m s with
  | ok a t =>
    rw [hs] at h
    exact ⟨a, t, rfl, h⟩
  | error e t =>
    rw [hs] at h
    cases h

theorem exists_of_toOption_map {r : Except ε α} {f : α → β} {b : β}
    (h : r.toOption.map f = some b) : ∃ a, r = .ok a ∧ f a = b := by
  cases r with
  | ok a => exact ⟨a, rfl, Option.some.inj h⟩
  | error e => cases h

/-- Whatever the outcome, the state `s` and the state after are in the relation. -/
def KeepsAt (R : σ → σ → Prop) (m : EStateM ε σ α) (s : σ) : Prop := R s (stateAfter m s)

/-- Whatever the outcome, the state before and the state after are in the relation. -/
def Keeps (R : σ → σ → Prop) (m : EStateM ε σ α) : Prop := ∀ s, KeepsAt R m s

variable {R : σ → σ → Prop}

/-- The second part of a step starts in a state that the first part has reached. -/
theorem KeepsAt.bind [Trans R R R] {m : EStateM ε σ α} {f : α → EStateM ε σ β} {s : σ}
    (hm : KeepsAt R m s) (hf : ∀ a t, m s = .ok a t → KeepsAt R (f a) t) :
    KeepsAt R (m >>= f) s := by
  unfold KeepsAt at hm ⊢
  cases hs : m s with
  | ok a q =>
    rw [stateAfter_of_ok hs] at hm
    rw [stateAfter_bind_of_ok hs]
    exact Trans.trans hm (hf a q hs)
  | error e q =>
    rw [stateAfter_bind_of_error hs]
    exact hm

namespace Keeps

theorem of_ok {m : EStateM ε σ α} (hm : Keeps R m) {s t : σ} {a : α} (h : m s = .ok a t) :
    R s t := by
  have hs : R s (stateAfter m s) := hm s
  rwa [stateAfter_of_ok h] at hs

theorem pure [Std.Refl R] (a : α) : Keeps R (pure a : EStateM ε σ α) := fun s => Std.Refl.refl s

theorem throw [Std.Refl R] (e : ε) : Keeps R (throw e : EStateM ε σ α) :=
  fun s => Std.Refl.refl s

theorem get [Std.Refl R] : Keeps R (get : EStateM ε σ σ) := fun s => Std.Refl.refl s

theorem bind [Trans R R R] {m : EStateM ε σ α} {f : α → EStateM ε σ β} (hm : Keeps R m)
    (hf : ∀ a, Keeps R (f a)) : Keeps R (m >>= f) :=
  fun s => (hm s).bind fun a t _ => hf a t

theorem map {m : EStateM ε σ α} (hm : Keeps R m) (f : α → β) : Keeps R (f <$> m) := by
  intro s
  have hs : R s (stateAfter m s) := hm s
  unfold KeepsAt
  rwa [stateAfter_map]

theorem forM [Std.Refl R] [Trans R R R] {f : α → EStateM ε σ PUnit} (hf : ∀ a, Keeps R (f a)) :
    ∀ as : List α, Keeps R (as.forM f)
  | [] => Keeps.pure _
  | a :: as => by
    rw [List.forM_eq_forM, List.forM_cons]
    exact (hf a).bind fun _ => forM hf as

end Keeps

/-- When the step fails in the state `s`, the failure is of the kind `E`. -/
def FailsOnly (E : ε → Prop) (m : EStateM ε σ α) (s : σ) : Prop := ∀ e t, m s = .error e t → E e

namespace FailsOnly

variable {E E' : ε → Prop} {m : EStateM ε σ α} {s : σ}

theorem of_ok {a : α} {t : σ} (h : m s = .ok a t) : FailsOnly E m s := by
  intro e t' he
  rw [h] at he
  cases he

theorem pure (a : α) (s : σ) : FailsOnly E (pure a : EStateM ε σ α) s := of_ok rfl

theorem throw {e : ε} (h : E e) (s : σ) : FailsOnly E (throw e : EStateM ε σ α) s := by
  intro e' t he
  cases he
  exact h

theorem bind {f : α → EStateM ε σ β} (hm : FailsOnly E m s)
    (hf : ∀ a t, m s = .ok a t → FailsOnly E (f a) t) : FailsOnly E (m >>= f) s := by
  intro e t he
  cases hs : m s with
  | ok a q =>
    rw [bind_of_ok hs] at he
    exact hf a q hs e t he
  | error e' q =>
    rw [bind_of_error hs] at he
    cases he
    exact hm _ _ hs

end FailsOnly

end Linearization
