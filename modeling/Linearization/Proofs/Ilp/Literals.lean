import Linearization.Proofs.Ilp.Exactness
import Mathlib.Algebra.Ring.Parity

/-!
# Exact literals

What a program that calls have built promises of the literals that stand for relations, connectives
and values, and of the rows for clauses and parities.

The literal of a relation, of a conjunction or disjunction or of a value leaves every earlier
solution in place and has the truth value of what it stands for in all later ones
(`Reaches.literals_exact`). A clause or a parity excludes exactly the solutions in which every guard
is true and no literal, or an even number of them (`Reaches.clauses_exact`). The lists may be empty,
and a literal may be repeated, stand next to its complement or be a guard as well.
-/

namespace Linearization

namespace Ilp

open Lowering Literal

variable {p q : Ilp} {l : Literal} {ls guards : List Literal} {C : Assignment → Prop} {u : Unit}
  {x : Assignment} {limit : Nat}

/-! ## Literals -/

/-- Every solution of the program extends to the other one, in all of whose solutions the literal,
which has a truth value there, is true exactly if the condition holds. -/
structure GivesTruth (p q : Ilp) (l : Literal) (C : Assignment → Prop) : Prop where
  truth : q.IsTruth l
  complete : ∀ x, p.Solves x → ∃ y, AgreeBelow p.columns.size x y ∧ q.Solves y
  exact : ∀ y, q.Solves y → (l.Holds y ↔ C y)

theorem Reifies.givesTruth (h : p.Reifies q l C) : p.GivesTruth q l C where
  truth := h.truth
  complete x hx := h.defines.complete x hx trivial
  exact := h.defines.sound

/-- In a program that calls have built, the literals that are returned for relations, for the
connectives of literals with truth values and for values are equivalent to them. -/
theorem Reaches.literals_exact (hp : (empty limit).Reaches p) :
    (∀ r l q, reify r p = .ok l q → p.GivesTruth q l r.Holds) ∧
    (∀ ls, (∀ k ∈ ls, p.IsTruth k) →
      (∀ l q, conjunction ls p = .ok l q → p.GivesTruth q l fun y => ∀ k ∈ ls, k.Holds y) ∧
      ∀ l q, disjunction ls p = .ok l q → p.GivesTruth q l fun y => ∃ k ∈ ls, k.Holds y) ∧
    ∀ v, v.Over p → ∀ l q, literalOf v p = .ok l q →
      p.GivesTruth q l fun y => ∃ n, v.value? y = some n ∧ n ≠ 0 := by
  have hwf : p.WellFormed := hp.wellFormed (.empty limit)
  refine ⟨fun r l q h => (reifies_of_reify hwf h).givesTruth, fun ls hls => ?_,
    fun v hv l q h => (reifies_of_literalOf hwf hv h).givesTruth⟩
  constructor
  · intro l q h
    exact (reifies_of_conjunction hwf hls h).givesTruth
  · intro l q h
    exact (reifies_of_disjunction hwf hls h).givesTruth

/-- A relation between columns, connectives of a literal with its complement and itself, and a form
whose values are 0 and 1. -/
theorem Reaches.literals_exact_of_shared_columns :
    let p := (empty 4096).afterCalls [.newBool "a", .newInt (-2) 3 "x", .newInt 5 6 "y"]
    let a : Literal := .ofColumn 0
    let r : Relation := ⟨.ofColumn 1, .ne, .ofColumn 0⟩
    let v : Lowered := .affine (.ofColumn 2 + .const (-5))
    (∃ l q, reify r p = .ok l q ∧ p.GivesTruth q l r.Holds) ∧
    (∃ l q, conjunction [a, a] p = .ok l q ∧ p.GivesTruth q l fun y => ∀ k ∈ [a, a], k.Holds y) ∧
    (∃ l q, disjunction [a, a.negate] p = .ok l q ∧
      p.GivesTruth q l fun y => ∃ k ∈ [a, a.negate], k.Holds y) ∧
    ∃ l q, literalOf v p = .ok l q ∧
      p.GivesTruth q l fun y => ∃ n, v.value? y = some n ∧ n ≠ 0 := by
  intro p a r v
  have hp : (empty 4096).Reaches p := Reaches.refl.afterCalls _
  have ha : p.IsTruth a := ⟨_, rfl, by decide, by decide⟩
  have hna : p.IsTruth a.negate := isTruth_negate.2 ha
  have hv : v.Over p := .affine (by decide)
  obtain ⟨hreify, hconnectives, hliteral⟩ := literals_exact hp
  have hrelation : succeedsWith (reify r) p (fun _ _ => true) = true := by decide +kernel
  have hboth : succeedsWith (conjunction [a, a]) p (fun _ _ => true) = true := by decide +kernel
  have heither : succeedsWith (disjunction [a, a.negate]) p (fun _ _ => true) = true := by
    decide +kernel
  have hform : succeedsWith (literalOf v) p (fun _ _ => true) = true := by decide +kernel
  obtain ⟨l₁, q₁, h₁, -⟩ := exists_of_succeedsWith hrelation
  obtain ⟨l₂, q₂, h₂, -⟩ := exists_of_succeedsWith hboth
  obtain ⟨l₃, q₃, h₃, -⟩ := exists_of_succeedsWith heither
  obtain ⟨l₄, q₄, h₄, -⟩ := exists_of_succeedsWith hform
  refine ⟨⟨l₁, q₁, h₁, hreify _ _ _ h₁⟩, ⟨l₂, q₂, h₂, ?_⟩, ⟨l₃, q₃, h₃, ?_⟩, l₄, q₄, h₄,
    hliteral v hv _ _ h₄⟩
  · exact (hconnectives [a, a] (by simp [ha])).1 _ _ h₂
  · exact (hconnectives [a, a.negate] (by simp [ha, hna])).2 _ _ h₃

/-! ## Clauses and parities -/

theorem Imposes.guarded_iff (h : p.Imposes q fun x => AllHold guards x → C x)
    (hg : ∀ g ∈ guards, p.IsTruth g) (hC : Local p.columns.size C) (hx : p.Solves x) :
    (∃ y, AgreeBelow p.columns.size x y ∧ q.Solves y) ↔ (∃ g ∈ guards, ¬ g.Holds x) ∨ C x := by
  have hlocal := (local_allHold fun g hmem => (hg g hmem).column_lt).imp hC
  rw [h.exists_iff hlocal hx, allHold_imp_iff]

/-- In a program that calls have built, an earlier solution extends to the row of a clause exactly if
a guard is false in it or at least one literal is true, and to the columns and rows of a parity
exactly if a guard is false in it or an odd number of the literals, with repetitions, is true.
Without literals it extends exactly if a guard is false. -/
theorem Reaches.clauses_exact (hp : (empty limit).Reaches p) (hls : ∀ l ∈ ls, p.IsTruth l)
    (hg : ∀ g ∈ guards, p.IsTruth g) :
    (∀ u q, addClause ls guards p = .ok u q → ∀ x, p.Solves x →
      ((∃ y, AgreeBelow p.columns.size x y ∧ q.Solves y) ↔
        (∃ g ∈ guards, ¬ g.Holds x) ∨ ∃ l ∈ ls, l.Holds x)) ∧
    (∀ u q, addParity ls guards p = .ok u q → ∀ x, p.Solves x →
      ((∃ y, AgreeBelow p.columns.size x y ∧ q.Solves y) ↔
        (∃ g ∈ guards, ¬ g.Holds x) ∨ Odd (ls.countP fun l => l.Holds x))) ∧
    ∀ u q, addClause [] guards p = .ok u q ∨ addParity [] guards p = .ok u q →
      ∀ x, p.Solves x →
        ((∃ y, AgreeBelow p.columns.size x y ∧ q.Solves y) ↔ ∃ g ∈ guards, ¬ g.Holds x) := by
  have hwf : p.WellFormed := hp.wellFormed (.empty limit)
  have hcolumn : ∀ l ∈ ls, l.column < p.columns.size := fun l hl => (hls l hl).column_lt
  refine ⟨fun u q h x hx => ?_, fun u q h x hx => ?_, fun u q h x hx => ?_⟩
  · exact (imposes_of_addClause hwf hls hg h).guarded_iff hg (local_anyHold hcolumn) hx
  · have hlocal : Local p.columns.size fun x => ls.countP (fun l => l.Holds x) % 2 = 1 := by
      intro x y hxy
      dsimp only
      rw [countP_congr hcolumn hxy]
    rw [Nat.odd_iff]
    exact (imposes_of_addParity hwf hls hg h).guarded_iff hg hlocal hx
  · have himposes : p.Imposes q fun x => AllHold guards x → AnyHold [] x := by
      rcases h with h | h
      · exact imposes_of_addClause hwf (List.forall_mem_nil _) hg h
      · -- Without literals a parity is the empty clause.
        exact imposes_of_addClause hwf (List.forall_mem_nil _) hg h
    rw [himposes.guarded_iff hg (local_anyHold (List.forall_mem_nil _)) hx]
    simp only [anyHold_nil, or_false]

/-- A literal next to its complement, and one that is repeated and a guard as well. -/
theorem Reaches.clauses_exact_of_shared_columns :
    let p := (empty 4096).afterCalls [.newBool "a", .newBool "b"]
    let a : Literal := .ofColumn 0
    let b : Literal := .ofColumn 1
    (∃ u q, addClause [a.negate, b, b] [a, b.negate] p = .ok u q ∧ ∀ x, p.Solves x →
      ((∃ y, AgreeBelow p.columns.size x y ∧ q.Solves y) ↔
        (∃ g ∈ [a, b.negate], ¬ g.Holds x) ∨ ∃ l ∈ [a.negate, b, b], l.Holds x)) ∧
    ∃ u q, addParity [a.negate, a, b, b] [b] p = .ok u q ∧ ∀ x, p.Solves x →
      ((∃ y, AgreeBelow p.columns.size x y ∧ q.Solves y) ↔
        (∃ g ∈ [b], ¬ g.Holds x) ∨ Odd ([a.negate, a, b, b].countP fun l => l.Holds x)) := by
  intro p a b
  have hp : (empty 4096).Reaches p := Reaches.refl.afterCalls _
  have ha : p.IsTruth a := ⟨_, rfl, by decide, by decide⟩
  have hb : p.IsTruth b := ⟨_, rfl, by decide, by decide⟩
  have hna : p.IsTruth a.negate := isTruth_negate.2 ha
  have hnb : p.IsTruth b.negate := isTruth_negate.2 hb
  have hclause : succeedsWith (addClause [a.negate, b, b] [a, b.negate]) p (fun _ _ => true) =
      true := by
    decide +kernel
  have hparity : succeedsWith (addParity [a.negate, a, b, b] [b]) p (fun _ _ => true) = true := by
    decide +kernel
  obtain ⟨u₁, q₁, h₁, -⟩ := exists_of_succeedsWith hclause
  obtain ⟨u₂, q₂, h₂, -⟩ := exists_of_succeedsWith hparity
  refine ⟨⟨u₁, q₁, h₁, ?_⟩, u₂, q₂, h₂, ?_⟩
  · exact (clauses_exact hp (by simp [hna, hb]) (by simp [ha, hnb])).1 u₁ q₁ h₁
  · exact (clauses_exact hp (by simp [hna, ha, hb]) (by simp [hb])).2.1 u₂ q₂ h₂

end Ilp

end Linearization
