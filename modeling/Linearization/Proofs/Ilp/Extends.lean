import Linearization.Proofs.Ilp.WellFormed

/-!
# Extensions

`p.Extends q need give` is what the proofs about lowerings are composed of: `q` grows out of `p`,
every solution of `q` satisfies `give`, and every solution of `p` that satisfies `need` has the
values of the columns of `p` in some solution of `q`. A constraint is imposed when both conditions
are the constraint (`Imposes`); a value is defined when nothing is needed (`Defines`).
-/

namespace Linearization.Ilp

/-- The solutions of `q` are the solutions of `p` that satisfy the condition, extended to new
columns; `need` suffices for the extension, and `give` follows from it. -/
structure Extends (p q : Ilp) (need give : Assignment → Prop) : Prop where
  grows : p.Grows q
  wellFormed : q.WellFormed
  sound : ∀ x, q.Solves x → give x
  complete : ∀ x, p.Solves x → need x → ∃ y, AgreeBelow p.columns.size x y ∧ q.Solves y

/-- The step from `p` to `q` adds exactly the constraint. -/
abbrev Imposes (p q : Ilp) (C : Assignment → Prop) : Prop := p.Extends q C C

/-- The step from `p` to `q` excludes nothing, and the property holds in all solutions of `q`. -/
abbrev Defines (p q : Ilp) (P : Assignment → Prop) : Prop := p.Extends q (fun _ => True) P

/-- The step from `p` to `q` excludes nothing and has made a literal that is true exactly where the
condition holds. -/
structure Reifies (p q : Ilp) (l : Literal) (C : Assignment → Prop) : Prop where
  truth : q.IsTruth l
  defines : p.Defines q fun x => (l.Holds x ↔ C x)

/-- The step from `p` to `q` excludes nothing and has made a form with the given value. -/
structure Computes (p q : Ilp) (e : Affine) (f : Assignment → Int) : Prop where
  below : e.Below q.columns.size
  defines : p.Defines q fun x => e.eval x = f x

namespace Extends

variable {p q r : Ilp} {N N' G G' : Assignment → Prop}

theorem refl (hp : p.WellFormed) (h : ∀ x, p.Solves x → G x) : p.Extends p N G where
  grows := Grows.refl p
  wellFormed := hp
  sound := h
  complete x hx _ := ⟨x, AgreeBelow.refl _ x, hx⟩

theorem imp (h : p.Extends q N G) (hN : ∀ x, p.Solves x → N' x → N x)
    (hG : ∀ x, q.Solves x → G x → G' x) : p.Extends q N' G' where
  grows := h.grows
  wellFormed := h.wellFormed
  sound x hx := hG x hx (h.sound x hx)
  complete x hx hn := h.complete x hx (hN x hx hn)

theorem weaken (h : p.Extends q N G) (hG : ∀ x, q.Solves x → G x → G' x) : p.Extends q N G' :=
  h.imp (fun _ _ hn => hn) hG

/-- Two steps, where the first and the need of the whole give what the second needs. -/
theorem trans (h : p.Extends q N G) (h' : q.Extends r N' G')
    (hN : ∀ x y, p.Solves x → N x → AgreeBelow p.columns.size x y → q.Solves y → G y → N' y) :
    p.Extends r N fun x => G x ∧ G' x where
  grows := h.grows.trans h'.grows
  wellFormed := h'.wellFormed
  sound x hx := ⟨h.sound x (h'.grows.solves hx), h'.sound x hx⟩
  complete x hx hn := by
    obtain ⟨y, hxy, hy⟩ := h.complete x hx hn
    obtain ⟨z, hyz, hz⟩ := h'.complete y hy (hN x y hx hn hxy hy (h.sound y hy))
    exact ⟨z, hxy.trans (hyz.mono h.grows.size_le), hz⟩

theorem withRow (hp : p.WellFormed) {row : Row}
    (hrow : ∀ t ∈ row.terms, t.column < p.columns.size) :
    p.Imposes (p.withRow row) row.Holds where
  grows := p.grows_withRow row
  wellFormed := hp.withRow hrow
  sound _ hx := (solves_withRow.1 hx).2
  complete x hx hr := ⟨x, AgreeBelow.refl _ x, solves_withRow.2 ⟨hx, hr⟩⟩

end Extends

namespace Imposes

variable {p q r : Ilp} {C D : Assignment → Prop}

theorem congr (h : p.Imposes q C) (hCD : ∀ x, p.Solves x → (C x ↔ D x)) : p.Imposes q D :=
  h.imp (fun x hx => (hCD x hx).2) fun x hx => (hCD x (h.grows.solves hx)).1

/-- The solutions that extend to the new columns are those that satisfy the constraint. -/
theorem exists_iff (h : p.Imposes q C) (hC : Local p.columns.size C) {x : Assignment}
    (hx : p.Solves x) : (∃ y, AgreeBelow p.columns.size x y ∧ q.Solves y) ↔ C x := by
  constructor
  · rintro ⟨y, hxy, hy⟩
    exact (hC x y hxy).2 (h.sound y hy)
  · exact h.complete x hx

theorem refl (hp : p.WellFormed) (h : ∀ x, p.Solves x → C x) : p.Imposes p C :=
  Extends.refl hp h

theorem trans (h : p.Imposes q C) (h' : q.Imposes r D) (hD : Local p.columns.size D) :
    p.Imposes r fun x => C x ∧ D x :=
  (h.imp (fun _ _ hcd => hcd.1) fun _ _ hc => hc).trans h'
    fun x y _ hcd hxy _ _ => (hD x y hxy).1 hcd.2

theorem of_defines {P : Assignment → Prop} (h : p.Defines q P) (h' : q.Imposes r C)
    (hCD : ∀ x, q.Solves x → P x → (C x ↔ D x)) (hD : Local p.columns.size D) :
    p.Imposes r D := by
  refine (Extends.trans (h.imp (fun _ _ _ => trivial) fun _ _ hP => hP) h'
    fun x y _ hx hxy hy hP => ?_).weaken fun x hx hPC => ?_
  · exact (hCD y hy hP).2 ((hD x y hxy).1 hx)
  · exact (hCD x (h'.grows.solves hx) hPC.1).1 hPC.2

end Imposes

namespace Defines

variable {p q r : Ilp} {P Q : Assignment → Prop}

theorem trans (h : p.Defines q P) (h' : q.Defines r Q) : p.Defines r fun x => P x ∧ Q x :=
  Extends.trans h h' fun _ _ _ _ _ _ _ => trivial

end Defines

namespace Computes

variable {p q r : Ilp} {e d : Affine} {f g : Assignment → Int}

theorem congr (h : p.Computes q e f) (hfg : ∀ x, q.Solves x → f x = g x) : p.Computes q e g :=
  ⟨h.below, h.defines.weaken fun x hx he => he.trans (hfg x hx)⟩

theorem refl (hp : p.WellFormed) (hb : e.Below p.columns.size)
    (h : ∀ x, p.Solves x → e.eval x = f x) : p.Computes p e f :=
  ⟨hb, Extends.refl hp h⟩

theorem trans (h : p.Computes q e f) (h' : q.Computes r d g) :
    p.Computes r d g ∧ p.Defines r fun x => e.eval x = f x :=
  ⟨⟨h'.below, (h.defines.trans h'.defines).weaken fun _ _ h => h.2⟩,
    (h.defines.trans h'.defines).weaken fun _ _ h => h.1⟩

end Computes

namespace Reifies

variable {p q : Ilp} {l : Literal} {C D : Assignment → Prop}

theorem congr (h : p.Reifies q l C) (hCD : ∀ x, q.Solves x → (C x ↔ D x)) : p.Reifies q l D :=
  ⟨h.truth, h.defines.weaken fun x hx hl => hl.trans (hCD x hx)⟩

theorem eval (h : p.Reifies q l C) {x : Assignment} (hx : q.Solves x) [Decidable (C x)] :
    l.toAffine.eval x = if C x then 1 else 0 := by
  rw [h.truth.eval_eq_ofTruth hx]
  exact if_congr (h.defines.sound x hx) rfl rfl

end Reifies

end Linearization.Ilp
