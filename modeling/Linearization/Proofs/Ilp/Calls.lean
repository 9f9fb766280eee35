import Linearization.Proofs.Ilp.Choice
import Linearization.Proofs.Ilp.Coerce
import Linearization.Proofs.Ilp.Division

/-!
# Programs that calls reach

A program is built by calls, each of which makes columns or lowers one construct; a call that fails
leaves behind what it had appended. `p.Reaches q` says that some sequence of calls, each successful
or not and with whatever arguments, leads from `p` to `q`.

No call takes anything away, except that the objective may be replaced (`Reaches.grows`), and every
program that is reached from a well-formed one is well-formed (`Reaches.wellFormed`). So a guarded
relation is exact in every program that is reached from the empty one (`Reaches.enforce_exact`).
-/

namespace Linearization

/-- What can be asked of a program under construction. -/
inductive Lowering.Call where
  | newBool (name : String)
  | newInt (lower upper : Int) (name : String)
  | auxiliaryBool (purpose : String)
  | auxiliaryInt (purpose : String) (lower upper : Int)
  | trueLiteral
  | constantLiteral (value : Bool)
  | enforceNonpositive (e : Affine) (guards : List Literal)
  | require (r : Relation)
  | enforce (r : Relation) (guards : List Literal)
  | reify (r : Relation)
  | addClause (literals guards : List Literal)
  | addImplication (a b : Literal)
  | addParity (literals guards : List Literal)
  | conjunction (literals : List Literal)
  | disjunction (literals : List Literal)
  | enforceDistinct (guards : List Literal) (forms : List Affine)
  | addMinimum (target : Affine) (forms : List Affine)
  | addMaximum (target : Affine) (forms : List Affine)
  | enforceElement (index : Affine) (items : List Affine) (target : Affine) (guards : List Literal)
  | encode (e : Affine)
  | absolute (e : Affine)
  | product (a b : Affine)
  | quotient (a b : Affine)
  | remainder (a b : Affine)
  | power (base : Affine) (exponent : Int)
  | affineOf (value : Lowered)
  | literalOf (value : Lowered)
  | setObjective (direction : Direction) (e : Affine)

namespace Lowering

/-- Do what was asked; the answer does not matter here. -/
def Call.run : Call → Lowering Unit
  | newBool name => discard (Lowering.newBool name)
  | newInt lower upper name => discard (Lowering.newInt lower upper name)
  | auxiliaryBool purpose => discard (Lowering.auxiliaryBool purpose)
  | auxiliaryInt purpose lower upper => discard (Lowering.auxiliaryInt purpose lower upper)
  | trueLiteral => discard Lowering.trueLiteral
  | constantLiteral value => discard (Lowering.constantLiteral value)
  | enforceNonpositive e guards => Lowering.enforceNonpositive e guards
  | require r => Lowering.require r
  | enforce r guards => Lowering.enforce r guards
  | reify r => discard (Lowering.reify r)
  | addClause literals guards => Lowering.addClause literals guards
  | addImplication a b => Lowering.addImplication a b
  | addParity literals guards => Lowering.addParity literals guards
  | conjunction literals => discard (Lowering.conjunction literals)
  | disjunction literals => discard (Lowering.disjunction literals)
  | enforceDistinct guards forms => Lowering.enforceDistinct guards forms
  | addMinimum target forms => Lowering.addMinimum target forms
  | addMaximum target forms => Lowering.addMaximum target forms
  | enforceElement index items target guards => Lowering.enforceElement index items target guards
  | encode e => discard (Lowering.encode e)
  | absolute e => discard (Lowering.absolute e)
  | product a b => discard (Lowering.product a b)
  | quotient a b => discard (Lowering.quotient a b)
  | remainder a b => discard (Lowering.remainder a b)
  | power base exponent => discard (Lowering.power base exponent)
  | affineOf value => discard (Lowering.affineOf value)
  | literalOf value => discard (Lowering.literalOf value)
  | setObjective direction e => Lowering.setObjective direction e

/-- Every call only appends, apart from the one that replaces the objective. -/
theorem steady_run (c : Call) (h : ∀ direction e, c ≠ .setObjective direction e) :
    Steady c.run := by
  cases c with
  | newBool name => exact (steady_newBool name).map _
  | newInt lower upper name => exact (steady_addColumn _).map _
  | auxiliaryBool purpose => exact (steady_auxiliaryBool purpose).map _
  | auxiliaryInt purpose lower upper => exact (steady_auxiliaryInt purpose lower upper).map _
  | trueLiteral => exact steady_trueLiteral.map _
  | constantLiteral value => exact (steady_constantLiteral value).map _
  | enforceNonpositive e guards => exact steady_enforceNonpositive e guards
  | require r => exact steady_enforce r []
  | enforce r guards => exact steady_enforce r guards
  | reify r => exact (steady_reify r).map _
  | addClause literals guards => exact steady_addClause literals guards
  | addImplication a b => exact steady_addImplication a b
  | addParity literals guards => exact steady_addParity literals guards
  | conjunction literals => exact (steady_conjunction literals).map _
  | disjunction literals => exact (steady_disjunction literals).map _
  | enforceDistinct guards forms => exact steady_enforceDistinct guards forms
  | addMinimum target forms => exact steady_addExtremum target forms .le
  | addMaximum target forms => exact steady_addExtremum target forms .ge
  | enforceElement index items target guards =>
    exact steady_enforceElement index items target guards
  | encode e => exact (steady_encode e).map _
  | absolute e => exact (steady_absolute e).map _
  | product a b => exact (steady_product a b).map _
  | quotient a b => exact (steady_quotient a b).map _
  | remainder a b => exact (steady_remainder a b).map _
  | power base exponent => exact (steady_power base exponent).map _
  | affineOf value => exact (steady_affineOf value).map _
  | literalOf value => exact (steady_literalOf value).map _
  | setObjective direction e => exact absurd rfl (h direction e)

end Lowering

namespace Ilp

/-- A sequence of calls leads from one program to the other. -/
inductive Reaches (p : Ilp) : Ilp → Prop where
  | refl : Reaches p p
  | call {q : Ilp} (h : Reaches p q) (c : Lowering.Call) : Reaches p (stateAfter c.run q)

/-- The program after a sequence of calls. -/
def afterCalls (p : Ilp) (calls : List Lowering.Call) : Ilp :=
  calls.foldl (fun q c => stateAfter c.run q) p

variable {p q r : Ilp} {x : Assignment} {e : Affine}

namespace Reaches

theorem trans (h : p.Reaches q) (h' : q.Reaches r) : p.Reaches r := by
  induction h' with
  | refl => exact h
  | call _ c ih => exact ih.call c

theorem afterCalls (h : p.Reaches q) (calls : List Lowering.Call) :
    p.Reaches (q.afterCalls calls) := by
  induction calls generalizing q with
  | nil => exact h
  | cons c calls ih => exact ih (h.call c)

/-- One call: the program grows and stays well-formed, and only the objective may be replaced. -/
theorem grows_call (hp : p.WellFormed) (c : Lowering.Call) :
    (p.withObjective (stateAfter c.run p).objective).Grows (stateAfter c.run p) ∧
      (stateAfter c.run p).WellFormed := by
  by_cases hc : ∃ direction e, c = .setObjective direction e
  · obtain ⟨direction, e, rfl⟩ := hc
    exact ⟨.refl _, hp.withObjective⟩
  · have hsteady : Lowering.Steady c.run :=
      Lowering.steady_run c fun direction e heq => hc ⟨direction, e, heq⟩
    obtain ⟨hgrows, hwf⟩ := hsteady p hp
    refine ⟨?_, hwf⟩
    rw [hgrows.objective]
    exact hgrows

theorem wellFormed (h : p.Reaches q) (hp : p.WellFormed) : q.WellFormed := by
  induction h with
  | refl => exact hp
  | call _ c ih => exact (grows_call ih c).2

theorem grows (h : p.Reaches q) (hp : p.WellFormed) : (p.withObjective q.objective).Grows q := by
  induction h with
  | refl => exact .refl p
  | @call q hq c ih =>
    have hstep := (grows_call (hq.wellFormed hp) c).1
    exact ⟨ih.columns.trans hstep.columns, ih.rows.trans hstep.rows,
      fun i hi => hstep.trueColumn i (ih.trueColumn i hi), ih.encodings.trans hstep.encodings, rfl,
      hstep.enumerationLimit.trans ih.enumerationLimit⟩

theorem solves (h : p.Reaches q) (hp : p.WellFormed) (hx : q.Solves x) : p.Solves x :=
  (h.grows hp).solves hx

theorem bounds (h : p.Reaches q) (hp : p.WellFormed) {lower upper : Int}
    (hb : p.bounds e = .ok (lower, upper)) : q.bounds e = .ok (lower, upper) :=
  (h.grows hp).bounds (bounds_withObjective.trans hb)

/-! ## Guarded relations -/

/-- In a program that calls have built, an earlier solution extends to the columns and rows of a
guarded relation exactly if a guard is false in it or the relation holds; and to those of a relation
without guards exactly if it holds. -/
theorem enforce_exact {limit : Nat} (hp : (empty limit).Reaches p) {s : Relation}
    {guards : List Literal} (hs : s.Below p.columns.size) (hg : ∀ g ∈ guards, p.IsTruth g) :
    (∀ u q, Lowering.enforce s guards p = .ok u q → ∀ x, p.Solves x →
      ((∃ y, AgreeBelow p.columns.size x y ∧ q.Solves y) ↔
        (∃ g ∈ guards, ¬ g.Holds x) ∨ s.Holds x)) ∧
    (∀ u q, Lowering.require s p = .ok u q → ∀ x, p.Solves x →
      ((∃ y, AgreeBelow p.columns.size x y ∧ q.Solves y) ↔ s.Holds x)) := by
  have hwf : p.WellFormed := hp.wellFormed (.empty limit)
  have hlocal : Local p.columns.size s.Holds := Relation.local_holds hs
  constructor
  · intro u q h x hx
    have himposes := Lowering.imposes_of_enforce hwf hg h
    have hguarded := (Literal.local_allHold fun g hmem => (hg g hmem).column_lt).imp hlocal
    rw [himposes.exists_iff hguarded hx, imp_iff_not_or, Literal.AllHold, not_forall₂]
    simp only [exists_prop]
  · intro u q h x hx
    exact (Lowering.imposes_of_require hwf h).exists_iff hlocal hx

/-- An inequation whose left side has the column of its guard: `x + b ≠ y` wherever `b` is true. -/
theorem enforce_exact_of_shared_column :
    let p := (empty 4096).afterCalls [.newInt 0 3 "x", .newInt 0 3 "y", .newBool "b"]
    let s : Relation := ⟨.ofColumn 0 + .ofColumn 2, .ne, .ofColumn 1⟩
    ∃ u q, Lowering.enforce s [.ofColumn 2] p = .ok u q ∧ ∀ x, p.Solves x →
      ((∃ y, AgreeBelow p.columns.size x y ∧ q.Solves y) ↔
        (∃ g ∈ [Literal.ofColumn 2], ¬ g.Holds x) ∨ s.Holds x) := by
  intro p s
  have hp : (empty 4096).Reaches p := Reaches.refl.afterCalls _
  have hs : s.Below p.columns.size := by decide
  have hg : ∀ g ∈ [Literal.ofColumn 2], p.IsTruth g := by
    simp only [List.forall_mem_singleton]
    exact ⟨_, rfl, by decide, by decide⟩
  have hrun : succeedsWith (Lowering.enforce s [.ofColumn 2]) p (fun _ _ => true) = true := by
    decide +kernel
  obtain ⟨u, q, h, -⟩ := exists_of_succeedsWith hrun
  exact ⟨u, q, h, (enforce_exact hp hs hg).1 u q h⟩

end Reaches

end Ilp

end Linearization
