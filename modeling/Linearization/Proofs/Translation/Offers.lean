import Linearization.Proofs.Translation.Denotes

/-!
# Steps with several outcomes

The counterpart of `Draft.Defines` and `Draft.Posts` for steps that leave something open. An
assignment is described by the values of some of the variables, which the step may register on its
way; the columns that it adds for anything else are free.

* `t.Offers t' P Y f`: in every later solution `f` reads off one of the outcomes `Y` that the values
  of the variables `P` allow, and each of these outcomes is read off some extension of an earlier
  solution.
* `t.Enforces t' P guards M`: whenever the guards are true, the values of the variables `P` satisfy
  `M` in every later solution, and an earlier solution that satisfies this extends.
* `t.Opens t' P P' valid mix`: variables are registered whose values are free to choose.
-/

namespace Linearization

open Linearization.Valuation Literal

namespace Draft

variable {t t' t'' : Draft} {P P' : VarKey → Prop} {σ τ : Valuation} {x y : Assignment}

/-! ## Values of some variables -/

/-- Those of the variables that are registered have the given values. -/
def Carries (t : Draft) (P : VarKey → Prop) (σ : Valuation) (x : Assignment) : Prop :=
  ∀ v : Var, t.layout.Has v → P v.toVarKey → t.layout.valuation x v.toVarKey = σ v.toVarKey

/-- The given values of those of the variables that are registered lie in their domains. -/
def Within (t : Draft) (P : VarKey → Prop) (σ : Valuation) : Prop :=
  ∀ v : Var, t.layout.Has v → P v.toVarKey → v.domain.Admits (σ v.toVarKey)

theorem Carries.congr (hwf : t.WellFormed) (h : t.Carries P σ x)
    (hxy : AgreeBelow t.program.columns.size x y) : t.Carries P σ y := by
  unfold Carries
  rwa [← hwf.valuation_congr hxy]

theorem Carries.back (hg : t.Grows t') (h : t'.Carries P σ x) : t.Carries P σ x := by
  intro v hv hP
  rw [← hg.layout.valuation hv]
  exact h v (hg.layout.has hv) hP

theorem Within.back (hg : t.Grows t') (h : t'.Within P σ) : t.Within P σ :=
  fun v hv hP => h v (hg.layout.has hv) hP

theorem carries_of_layout (hl : t'.layout = t.layout) : t'.Carries P σ x ↔ t.Carries P σ x := by
  unfold Carries
  rw [hl]

theorem within_of_layout (hl : t'.layout = t.layout) : t'.Within P σ ↔ t.Within P σ := by
  unfold Within
  rw [hl]

/-! ## Steps -/

/-- The draft grows and stays well-formed, and of the variables that it could have had before it
registers only the given ones. -/
structure Advances (t t' : Draft) (P : VarKey → Prop) : Prop where
  wellFormed : t'.WellFormed
  grows : t.Grows t'
  new : ∀ v : Var, t'.layout.Has v →
    t.layout.Has v ∨ P v.toVarKey ∨ ¬ v.InScope t.program.columns.size

namespace Advances

theorem refl (h : t.WellFormed) : t.Advances t P := ⟨h, .refl t, fun _ hv => .inl hv⟩

/-- A second step may register more variables if they are ones that the first could not have had. -/
theorem widen (h : t.Advances t' P) (h' : t'.Advances t'' P')
    (hP : ∀ v : Var, P' v.toVarKey → P v.toVarKey ∨ ¬ v.InScope t.program.columns.size) :
    t.Advances t'' P where
  wellFormed := h'.wellFormed
  grows := h.grows.trans h'.grows
  new v hv := by
    rcases h'.new v hv with hv | hv | hscope
    · exact h.new v hv
    · exact .inr (hP v hv)
    · exact .inr (.inr fun hv => hscope (hv.mono h.grows.program.size_le))

theorem trans (h : t.Advances t' P) (h' : t'.Advances t'' P) : t.Advances t'' P :=
  h.widen h' fun _ => .inl

theorem of_program (h : t.Advances t' P) (hg : t'.program.Grows t''.program)
    (hp : t''.program.WellFormed) (hl : t''.layout = t'.layout) : t.Advances t'' P where
  wellFormed := h.wellFormed.of_program hg hp hl
  grows := ⟨h.grows.program.trans hg, by rw [hl]; exact h.grows.layout⟩
  new v hv := by
    rw [hl] at hv
    exact h.new v hv

theorem relabel {k k' m m' : Nat} {log log' : List Global} (h : t.Advances t' P) :
    Draft.Advances { t with depth := k, deepest := m, decomposed := log }
      { t' with depth := k', deepest := m', decomposed := log' } P :=
  ⟨⟨h.wellFormed.program, h.wellFormed.images, h.wellFormed.inScope⟩,
    ⟨h.grows.program, h.grows.layout⟩, h.new⟩

end Advances

/-- In every later solution the function reads off an outcome that the values of the variables
allow, there always is one, and each of them is read off an extension of an earlier solution. -/
structure Offers {α : Type} (t t' : Draft) (P : VarKey → Prop) (Y : Valuation → α → Prop)
    (f : Assignment → α) : Prop extends Advances t t' P where
  reads : ∀ x y, AgreeBelow t'.program.columns.size x y → f x = f y
  sound : ∀ σ y, t'.program.Solves y → t'.Carries P σ y → Y σ (f y)
  serial : ∀ σ x, t.program.Solves x → t.Carries P σ x → t'.Within P σ → ∃ a, Y σ a
  complete : ∀ σ x a, t.program.Solves x → t.Carries P σ x → t'.Within P σ → Y σ a →
    ∃ y, AgreeBelow t.program.columns.size x y ∧ t'.program.Solves y ∧ t'.Carries P σ y ∧ f y = a

/-- Whenever the guards are true, the values of the variables satisfy the condition, and nothing
else is excluded. -/
structure Enforces (t t' : Draft) (P : VarKey → Prop) (guards : List Literal)
    (M : Valuation → Prop) : Prop extends Advances t t' P where
  sound : ∀ σ y, t'.program.Solves y → t'.Carries P σ y → AllHold guards y → M σ
  complete : ∀ σ x, t.program.Solves x → t.Carries P σ x → t'.Within P σ →
    (AllHold guards x → M σ) →
    ∃ y, AgreeBelow t.program.columns.size x y ∧ t'.program.Solves y ∧ t'.Carries P σ y

variable {α β : Type} {Y Z : Valuation → α → Prop} {Q : Valuation → β → Prop}
  {f : Assignment → α} {g : Assignment → β} {guards guards' : List Literal}
  {M N : Valuation → Prop}

theorem local_guards (hguards : ∀ l ∈ guards, t.program.IsTruth l) :
    Local t.program.columns.size (AllHold guards) :=
  local_allHold fun l hl => (hguards l hl).column_lt

namespace Offers

/-- Nothing is done, and the values of the variables decide the outcome. -/
theorem refl (h : t.WellFormed)
    (hreads : ∀ x y, AgreeBelow t.program.columns.size x y → f x = f y)
    (hY : ∀ σ x a, t.program.Solves x → t.Carries P σ x → (Y σ a ↔ f x = a)) :
    t.Offers t P Y f where
  toAdvances := .refl h
  reads := hreads
  sound σ y hy hσ := (hY σ y _ hy hσ).2 rfl
  serial σ x hx hσ _ := ⟨f x, (hY σ x _ hx hσ).2 rfl⟩
  complete σ x a hx hσ _ ha := ⟨x, .refl _ x, hx, hσ, (hY σ x a hx hσ).1 ha⟩

theorem congr (h : t.Offers t' P Y f) (hYZ : ∀ σ a, Y σ a ↔ Z σ a) : t.Offers t' P Z f where
  toAdvances := h.toAdvances
  reads := h.reads
  sound σ y hy hσ := (hYZ σ _).1 (h.sound σ y hy hσ)
  serial σ x hx hσ hin := (h.serial σ x hx hσ hin).imp fun a ha => (hYZ σ a).1 ha
  complete σ x a hx hσ hin ha := h.complete σ x a hx hσ hin ((hYZ σ a).2 ha)

theorem relabel {k k' m m' : Nat} {log log' : List Global} (h : t.Offers t' P Y f) :
    Draft.Offers { t with depth := k, deepest := m, decomposed := log }
      { t' with depth := k', deepest := m', decomposed := log' } P Y f :=
  ⟨h.toAdvances.relabel, h.reads, h.sound, h.serial, h.complete⟩

theorem trans (h : t.Offers t' P Y f) (h' : t'.Offers t'' P Q g) :
    t.Offers t'' P (fun σ c => Y σ c.1 ∧ Q σ c.2) fun x => (f x, g x) where
  toAdvances := h.toAdvances.trans h'.toAdvances
  reads x y hxy := by
    rw [h.reads x y (hxy.mono h'.grows.program.size_le), h'.reads x y hxy]
  sound σ y hy hσ :=
    ⟨h.sound σ y (h'.grows.program.solves hy) (hσ.back h'.grows), h'.sound σ y hy hσ⟩
  serial σ x hx hσ hin := by
    obtain ⟨a, ha⟩ := h.serial σ x hx hσ (hin.back h'.grows)
    obtain ⟨y, -, hy, hσy, -⟩ := h.complete σ x a hx hσ (hin.back h'.grows) ha
    obtain ⟨b, hb⟩ := h'.serial σ y hy hσy hin
    exact ⟨(a, b), ha, hb⟩
  complete σ x c hx hσ hin hc := by
    obtain ⟨y, hxy, hy, hσy, hfy⟩ := h.complete σ x c.1 hx hσ (hin.back h'.grows) hc.1
    obtain ⟨z, hyz, hz, hσz, hgz⟩ := h'.complete σ y c.2 hy hσy hin hc.2
    refine ⟨z, hxy.trans (hyz.mono h.grows.program.size_le), hz, hσz, ?_⟩
    rw [← h.reads y z hyz, hfy, hgz]

theorem defines {R : α → β → Prop} (h : t.Offers t' P Y f)
    (hd : t'.Defines t'' fun _ x => R (f x) (g x))
    (hreads : ∀ x y, AgreeBelow t''.program.columns.size x y → g x = g y)
    (hunique : ∀ a b b', R a b → R a b' → b = b')
    (hQ : ∀ σ b, Q σ b ↔ ∃ a, Y σ a ∧ R a b) : t.Offers t'' P Q g where
  toAdvances := h.toAdvances.of_program hd.defines.grows hd.defines.wellFormed hd.layout
  reads := hreads
  sound σ y hy hσ := (hQ σ _).2 ⟨f y, h.sound σ y (hd.defines.grows.solves hy)
    ((carries_of_layout hd.layout).1 hσ), hd.sound hy⟩
  serial σ x hx hσ hin := by
    rw [within_of_layout hd.layout] at hin
    obtain ⟨a, ha⟩ := h.serial σ x hx hσ hin
    obtain ⟨y, -, hy, -, hfy⟩ := h.complete σ x a hx hσ hin ha
    obtain ⟨z, hyz, hz⟩ := hd.defines.complete y hy trivial
    refine ⟨g z, (hQ σ _).2 ⟨a, ha, ?_⟩⟩
    rw [← hfy, h.reads y z hyz]
    exact hd.sound hz
  complete σ x b hx hσ hin hb := by
    rw [within_of_layout hd.layout] at hin
    obtain ⟨a, ha, hab⟩ := (hQ σ b).1 hb
    obtain ⟨y, hxy, hy, hσy, hfy⟩ := h.complete σ x a hx hσ hin ha
    obtain ⟨z, hyz, hz⟩ := hd.defines.complete y hy trivial
    have hR : R a (g z) := by
      rw [← hfy, h.reads y z hyz]
      exact hd.sound hz
    refine ⟨z, hxy.trans (hyz.mono h.grows.program.size_le), hz, ?_, hunique a _ _ hR hab⟩
    rw [carries_of_layout hd.layout]
    exact hσy.congr h.wellFormed hyz

theorem map (k : α → β) (h : t.Offers t' P Y f) : t.Offers t' P
    (fun σ b => ∃ a, Y σ a ∧ k a = b) fun x => k (f x) :=
  h.defines (R := fun a b => k a = b) (.refl h.wellFormed.program fun _ _ => rfl)
    (fun x y hxy => congrArg k (h.reads x y hxy)) (fun _ _ _ hb hb' => hb.symm.trans hb')
    fun _ _ => Iff.rfl

theorem enforces (h : t.Offers t' P Y f) : t.Enforces t' P guards fun _ => True where
  toAdvances := h.toAdvances
  sound _ _ _ _ _ := trivial
  complete σ x hx hσ hin _ := by
    obtain ⟨a, ha⟩ := h.serial σ x hx hσ hin
    obtain ⟨y, hxy, hy, hσy, -⟩ := h.complete σ x a hx hσ hin ha
    exact ⟨y, hxy, hy, hσy⟩

/-- Where the guards are true an outcome of some kind is chosen, and elsewhere any. -/
theorem exists_guarded {C : α → Prop} (h : t.Offers t' P Y f) (hx : t.program.Solves x)
    (hσ : t.Carries P σ x) (hin : t'.Within P σ)
    (hC : AllHold guards x → ∃ a, Y σ a ∧ C a) :
    ∃ y, AgreeBelow t.program.columns.size x y ∧ t'.program.Solves y ∧ t'.Carries P σ y ∧
      (AllHold guards x → C (f y)) := by
  by_cases hg : AllHold guards x
  · obtain ⟨a, ha, hCa⟩ := hC hg
    obtain ⟨y, hxy, hy, hσy, hfy⟩ := h.complete σ x a hx hσ hin ha
    exact ⟨y, hxy, hy, hσy, fun _ => hfy ▸ hCa⟩
  · obtain ⟨a, ha⟩ := h.serial σ x hx hσ hin
    obtain ⟨y, hxy, hy, hσy, -⟩ := h.complete σ x a hx hσ hin ha
    exact ⟨y, hxy, hy, hσy, fun h => absurd h hg⟩

theorem imposes {C : α → Prop} {R : Assignment → Prop} {q : Ilp} (h : t.Offers t' P Y f)
    (hguards : ∀ l ∈ guards, t.program.IsTruth l) (hi : t'.program.Imposes q R)
    (hR : ∀ y, t'.program.Solves y → (R y ↔ (AllHold guards y → C (f y)))) :
    t.Enforces { t' with program := q } P guards fun σ => ∃ a, Y σ a ∧ C a where
  toAdvances := h.toAdvances.of_program hi.grows hi.wellFormed rfl
  sound σ y hy hσ hg := by
    have hy' := hi.grows.solves hy
    exact ⟨f y, h.sound σ y hy' hσ, (hR y hy').1 (hi.sound y hy) hg⟩
  complete σ x hx hσ hin hM := by
    obtain ⟨y, hxy, hy, hσy, hC⟩ := h.exists_guarded hx hσ hin hM
    have hlocal := local_guards hguards
    obtain ⟨z, hyz, hz⟩ := hi.complete y hy ((hR y hy).2 fun hg => hC ((hlocal x y hxy).2 hg))
    have hσz := hσy.congr h.wellFormed hyz
    exact ⟨z, hxy.trans (hyz.mono h.grows.program.size_le), hz, hσz⟩

theorem imposes_trivial {R : Assignment → Prop} {q : Ilp} (h : t.Offers t' P Y f)
    (hguards : ∀ l ∈ guards, t.program.IsTruth l) (hi : t'.program.Imposes q R)
    (hR : ∀ y, t'.program.Solves y → R y) :
    t.Enforces { t' with program := q } P guards fun _ => True := by
  have henforces := h.imposes hguards hi (C := fun _ => True) fun y hy =>
    ⟨fun _ _ => trivial, fun _ => hR y hy⟩
  refine ⟨henforces.toAdvances, fun _ _ _ _ _ => trivial, fun σ x hx hσ hin _ => ?_⟩
  refine henforces.complete σ x hx hσ hin fun _ => ?_
  exact (h.serial σ x hx hσ hin).imp fun a ha => ⟨ha, trivial⟩

theorem underGuards {C : α → Prop} (h : t.Offers t' P Y f)
    (hguards : ∀ l ∈ guards, t.program.IsTruth l) (h' : t'.Enforces t'' P guards' M)
    (hC : ∀ y, t'.program.Solves y → (AllHold guards' y ↔ AllHold guards y ∧ C (f y))) :
    t.Enforces t'' P guards fun σ => ∃ a, Y σ a ∧ (C a → M σ) where
  toAdvances := h.toAdvances.trans h'.toAdvances
  sound σ y hy hσ hg := by
    have hy' := h'.grows.program.solves hy
    refine ⟨f y, h.sound σ y hy' (hσ.back h'.grows), fun hCf => ?_⟩
    exact h'.sound σ y hy hσ ((hC y hy').2 ⟨hg, hCf⟩)
  complete σ x hx hσ hin hM := by
    obtain ⟨y, hxy, hy, hσy, hMy⟩ := h.exists_guarded hx hσ (hin.back h'.grows) hM
    have hlocal := local_guards hguards
    obtain ⟨z, hyz, hz, hσz⟩ := h'.complete σ y hy hσy hin fun hg' => by
      obtain ⟨hg, hCf⟩ := (hC y hy).1 hg'
      exact hMy ((hlocal x y hxy).2 hg) hCf
    exact ⟨z, hxy.trans (hyz.mono h.grows.program.size_le), hz, hσz⟩

end Offers

namespace Enforces

theorem refl (h : t.WellFormed) (hM : ∀ σ, M σ) : t.Enforces t P guards M where
  toAdvances := .refl h
  sound σ _ _ _ _ := hM σ
  complete _ x hx hσ _ _ := ⟨x, .refl _ x, hx, hσ⟩

theorem congr (h : t.Enforces t' P guards M) (hMN : ∀ σ, M σ ↔ N σ) : t.Enforces t' P guards N where
  toAdvances := h.toAdvances
  sound σ y hy hσ hg := (hMN σ).1 (h.sound σ y hy hσ hg)
  complete σ x hx hσ hin hN := h.complete σ x hx hσ hin fun hg => (hMN σ).2 (hN hg)

theorem relabel {k k' m m' : Nat} {log log' : List Global} (h : t.Enforces t' P guards M) :
    Draft.Enforces { t with depth := k, deepest := m, decomposed := log }
      { t' with depth := k', deepest := m', decomposed := log' } P guards M :=
  ⟨h.toAdvances.relabel, h.sound, h.complete⟩

theorem trans (h : t.Enforces t' P guards M) (h' : t'.Enforces t'' P guards N)
    (hguards : ∀ l ∈ guards, t.program.IsTruth l) :
    t.Enforces t'' P guards fun σ => M σ ∧ N σ where
  toAdvances := h.toAdvances.trans h'.toAdvances
  sound σ y hy hσ hg :=
    ⟨h.sound σ y (h'.grows.program.solves hy) (hσ.back h'.grows) hg, h'.sound σ y hy hσ hg⟩
  complete σ x hx hσ hin hMN := by
    obtain ⟨y, hxy, hy, hσy⟩ := h.complete σ x hx hσ (hin.back h'.grows) fun hg => (hMN hg).1
    obtain ⟨z, hyz, hz, hσz⟩ := h'.complete σ y hy hσy hin fun hg =>
      (hMN ((local_guards hguards x y hxy).2 hg)).2
    exact ⟨z, hxy.trans (hyz.mono h.grows.program.size_le), hz, hσz⟩

end Enforces

/-! ## Variables whose values are chosen -/

/-- Variables are registered, and any valid choice of values for those that the scope does not
include is taken by some extension of an earlier solution. -/
structure Opens {ι : Type} (t t' : Draft) (P P' : VarKey → Prop) (valid : ι → Prop)
    (mix : Valuation → ι → Valuation) : Prop extends Advances t t' P where
  widens : ∀ v : Var, P' v.toVarKey → P v.toVarKey ∨ ¬ v.InScope t.program.columns.size
  same : ∀ σ i k, P k → P' k ∧ mix σ i k = σ k
  within : ∀ σ i (v : Var), valid i → P' v.toVarKey → ¬ P v.toVarKey →
    v.domain.Admits (mix σ i v.toVarKey)
  nonempty : ∃ i, valid i
  sound : ∀ σ y, t'.program.Solves y → t'.Carries P σ y →
    ∃ i, valid i ∧ ∀ v : Var, P' v.toVarKey → ¬ P v.toVarKey →
      t'.layout.Has v ∧ t'.layout.valuation y v.toVarKey = mix σ i v.toVarKey
  complete : ∀ σ i x, valid i → t.program.Solves x → t.Carries P σ x → t'.Within P σ →
    ∃ y, AgreeBelow t.program.columns.size x y ∧ t'.program.Solves y ∧
      t'.Carries P' (mix σ i) y

namespace Opens

variable {ι : Type} {valid : ι → Prop} {mix : Valuation → ι → Valuation} {i : ι}

theorem carries_back (h : t.Opens t' P P' valid mix) (hσ : t''.Carries P' (mix σ i) y) :
    t''.Carries P σ y := fun v hv hP => by
  obtain ⟨hP', heq⟩ := h.same σ i v.toVarKey hP
  rw [hσ v hv hP', heq]

/-- The values that the variables outside of the scope have in a solution are a valid choice. -/
theorem exists_carries (h : t.Opens t' P P' valid mix) (hg : t'.Grows t'')
    (hy : t''.program.Solves y) (hσ : t''.Carries P σ y) :
    ∃ i, valid i ∧ t''.Carries P' (mix σ i) y := by
  obtain ⟨i, hi, hvalues⟩ := h.sound σ y (hg.program.solves hy) (hσ.back hg)
  refine ⟨i, hi, fun v hv hP' => ?_⟩
  by_cases hP : P v.toVarKey
  · rw [hσ v hv hP, (h.same σ i _ hP).2]
  · obtain ⟨hhas, hvalue⟩ := hvalues v hP' hP
    rw [hg.layout.valuation hhas, hvalue]

theorem within_mix (h : t.Opens t' P P' valid mix) (hi : valid i) (hσ : t''.Within P σ) :
    t''.Within P' (mix σ i) := fun v hv hP' => by
  by_cases hP : P v.toVarKey
  · rw [(h.same σ i _ hP).2]
    exact hσ v hv hP
  · exact h.within σ i v hi hP' hP

theorem offers (h : t.Opens t' P P' valid mix) (h' : t'.Offers t'' P' Y f) :
    t.Offers t'' P (fun σ a => ∃ i, valid i ∧ Y (mix σ i) a) f where
  toAdvances := h.toAdvances.widen h'.toAdvances h.widens
  reads := h'.reads
  sound σ y hy hσ := by
    obtain ⟨i, hi, hmix⟩ := h.exists_carries h'.grows hy hσ
    exact ⟨i, hi, h'.sound _ y hy hmix⟩
  serial σ x hx hσ hin := by
    obtain ⟨i, hi⟩ := h.nonempty
    obtain ⟨y, -, hy, hmix⟩ := h.complete σ i x hi hx hσ (hin.back h'.grows)
    obtain ⟨a, ha⟩ := h'.serial _ y hy hmix (h.within_mix hi hin)
    exact ⟨a, i, hi, ha⟩
  complete σ x a hx hσ hin ha := by
    obtain ⟨i, hi, ha⟩ := ha
    obtain ⟨y, hxy, hy, hmix⟩ := h.complete σ i x hi hx hσ (hin.back h'.grows)
    obtain ⟨z, hyz, hz, hmix', hfz⟩ := h'.complete _ y a hy hmix (h.within_mix hi hin) ha
    exact ⟨z, hxy.trans (hyz.mono h.grows.program.size_le), hz, h.carries_back hmix', hfz⟩

theorem enforces (h : t.Opens t' P P' valid mix)
    (hguards : ∀ l ∈ guards, t.program.IsTruth l) (h' : t'.Enforces t'' P' guards M) :
    t.Enforces t'' P guards fun σ => ∃ i, valid i ∧ M (mix σ i) where
  toAdvances := h.toAdvances.widen h'.toAdvances h.widens
  sound σ y hy hσ hg := by
    obtain ⟨i, hi, hmix⟩ := h.exists_carries h'.grows hy hσ
    exact ⟨i, hi, h'.sound _ y hy hmix hg⟩
  complete σ x hx hσ hin hM := by
    have hchoice : ∃ i, valid i ∧ (AllHold guards x → M (mix σ i)) := by
      by_cases hg : AllHold guards x
      · obtain ⟨i, hi, hMi⟩ := hM hg
        exact ⟨i, hi, fun _ => hMi⟩
      · obtain ⟨i, hi⟩ := h.nonempty
        exact ⟨i, hi, fun h => absurd h hg⟩
    obtain ⟨i, hi, hMi⟩ := hchoice
    obtain ⟨y, hxy, hy, hmix⟩ := h.complete σ i x hi hx hσ (hin.back h'.grows)
    obtain ⟨z, hyz, hz, hmix'⟩ := h'.complete _ y hy hmix (h.within_mix hi hin) fun hg =>
      hMi ((local_guards hguards x y hxy).2 hg)
    exact ⟨z, hxy.trans (hyz.mono h.grows.program.size_le), hz, h.carries_back hmix'⟩

end Opens

/-! ## Registration -/

/-- The given variables are declared, or were introduced before. -/
def Scopes (t : Draft) (P : VarKey → Prop) : Prop :=
  ∀ v : Var, P v.toVarKey → v.InScope t.program.columns.size

theorem Scopes.mono (h : t.Scopes P) (hg : t.Grows t') : t'.Scopes P :=
  fun v hv => (h v hv).mono hg.program.size_le

section

variable {vs : List Var}

/-- Registering variables opens those outside of the scope, if their values in a solution are always
a valid choice. -/
theorem opens_withVars {ι : Type} {valid : ι → Prop} {mix : Valuation → ι → Valuation}
    (hwf : t.WellFormed) (horder : t.InOrder vs) (hvs : ∀ v ∈ vs, P' v.toVarKey)
    (hwidens : ∀ v : Var, P' v.toVarKey → P v.toVarKey ∨ ¬ v.InScope t.program.columns.size)
    (hsame : ∀ σ i k, P k → P' k ∧ mix σ i k = σ k)
    (hwithin : ∀ σ i (v : Var), valid i → P' v.toVarKey → ¬ P v.toVarKey →
      v.domain.Admits (mix σ i v.toVarKey))
    (hnonempty : ∃ i, valid i)
    (hsound : ∀ σ y, (t.withVars vs).program.Solves y →
      ∃ i, valid i ∧ ∀ v : Var, P' v.toVarKey → ¬ P v.toVarKey → (t.withVars vs).layout.Has v ∧
        (t.withVars vs).layout.valuation y v.toVarKey = mix σ i v.toVarKey) :
    t.Opens (t.withVars vs) P P' valid mix where
  wellFormed := hwf.withVars horder
  grows := t.grows_withVars vs
  new v hv := by
    rcases has_withVars.1 hv with hv | hv
    · obtain ⟨w, hw, heq⟩ := List.mem_map.1 hv
      exact .inr (hwidens v (heq ▸ hvs w hw))
    · exact .inl hv
  widens := hwidens
  same := hsame
  within := hwithin
  nonempty := hnonempty
  sound σ y hy _ := hsound σ y hy
  complete σ i x hi hx hσ hin := by
    -- Registered variables keep their values, and the others get the chosen ones.
    let ρ : Valuation := fun k => if t.layout.Has ⟨k, ""⟩ then t.layout.valuation x k else mix σ i k
    have hold : ∀ v : Var, t.layout.Has v → ρ v.toVarKey = t.layout.valuation x v.toVarKey :=
      fun v hv => if_pos hv
    have hnew : ∀ v : Var, ¬ t.layout.Has v → ρ v.toVarKey = mix σ i v.toVarKey :=
      fun v hv => if_neg hv
    obtain ⟨y, hxy, hy, hvalues⟩ := exists_values (ρ := ρ) hwf horder hx
      (fun v hv => (hold v hv).symm) fun v hv hnot => by
        rw [hnew v hnot]
        by_cases hP : P v.toVarKey
        · rw [(hsame σ i _ hP).2]
          exact hin v (has_withVars.2 (.inl (List.mem_map_of_mem hv))) hP
        · exact hwithin σ i v hi (hvs v hv) hP
    refine ⟨y, hxy, hy, fun v hv hP' => ?_⟩
    rw [hvalues v hv]
    by_cases hhas : t.layout.Has v
    · have hP : P v.toVarKey :=
        (hwidens v hP').resolve_right fun hnot => hnot (hwf.inScope v hhas)
      rw [hold v hhas, hσ v hhas hP, (hsame σ i _ hP).2]
    · exact hnew v hhas

/-- Registering variables of the scope leaves nothing to choose. -/
theorem opens_of_scope (hwf : t.WellFormed) (horder : t.InOrder vs) (hvs : ∀ v ∈ vs, P v.toVarKey) :
    t.Opens (t.withVars vs) P P (fun _ : Unit => True) fun σ _ => σ :=
  opens_withVars hwf horder hvs (fun _ hP => .inl hP) (fun _ _ _ hP => ⟨hP, rfl⟩)
    (fun _ _ _ _ hP hnot => absurd hP hnot) ⟨(), trivial⟩
    fun _ _ _ => ⟨(), trivial, fun _ hP hnot => absurd hP hnot⟩

end

end Draft

end Linearization
