import Linearization.Proofs.Ilp.ArithmeticAttempts
import Linearization.Proofs.Ilp.SharedEncodings

/-!
# Failed calls do not over-constrain

A call that fails leaves behind the columns and rows that it had appended. Every solution of the
program before it that satisfies what was asked extends to a solution of the program after it, and
the encodings that are kept are still shared (`Reaches.failed_call_spares`). A call that asks for a
value and not for a constraint excludes no solution at all.
-/

namespace Linearization

namespace Lowering.Call

/-- The call is about columns of the program, and its literals stand for truth values. -/
def Over (p : Ilp) : Call → Prop
  | enforceNonpositive e guards => e.Below p.columns.size ∧ ∀ g ∈ guards, p.IsTruth g
  | require r | reify r => r.Below p.columns.size
  | enforce r guards => r.Below p.columns.size ∧ ∀ g ∈ guards, p.IsTruth g
  | addClause ls guards | addParity ls guards =>
    (∀ l ∈ ls, p.IsTruth l) ∧ ∀ g ∈ guards, p.IsTruth g
  | addImplication a b => p.IsTruth a ∧ p.IsTruth b
  | conjunction ls | disjunction ls => ∀ l ∈ ls, p.IsTruth l
  | enforceDistinct guards forms =>
    (∀ g ∈ guards, p.IsTruth g) ∧ ∀ e ∈ forms, e.Below p.columns.size
  | addMinimum target forms | addMaximum target forms =>
    target.Below p.columns.size ∧ ∀ e ∈ forms, e.Below p.columns.size
  | enforceElement index items target guards =>
    (index.Below p.columns.size ∧ target.Below p.columns.size) ∧
      (∀ e ∈ items, e.Below p.columns.size) ∧ ∀ g ∈ guards, p.IsTruth g
  | encode e | absolute e | power e _ | setObjective _ e => e.Below p.columns.size
  | product a b | quotient a b | remainder a b =>
    a.Below p.columns.size ∧ b.Below p.columns.size
  | affineOf v | literalOf v => v.Over p
  | newBool _ | newInt _ _ _ | auxiliaryBool _ | auxiliaryInt _ _ _ | trueLiteral
  | constantLiteral _ => True

/-- The constraint that the call asks for; a call for a value asks for none. -/
def Asks : Call → Assignment → Prop
  | enforceNonpositive e guards, x => Literal.AllHold guards x → e.eval x ≤ 0
  | require r, x => r.Holds x
  | enforce r guards, x => Literal.AllHold guards x → r.Holds x
  | addClause ls guards, x => Literal.AllHold guards x → ∃ l ∈ ls, l.Holds x
  | addImplication a b, x => a.Holds x → b.Holds x
  | addParity ls guards, x =>
    Literal.AllHold guards x → ls.countP (fun l => l.Holds x) % 2 = 1
  | enforceDistinct guards forms, x =>
    Literal.AllHold guards x → forms.Pairwise fun a b => a.eval x ≠ b.eval x
  | addMinimum target forms, x =>
    (∀ e ∈ forms, target.eval x ≤ e.eval x) ∧ ∃ e ∈ forms, target.eval x = e.eval x
  | addMaximum target forms, x =>
    (∀ e ∈ forms, target.eval x ≥ e.eval x) ∧ ∃ e ∈ forms, target.eval x = e.eval x
  | enforceElement index items target guards, x => Literal.AllHold guards x →
    ∃ item, itemAt? items (index.eval x) = some item ∧ target.eval x = item.eval x
  | _, _ => True

end Lowering.Call

namespace Lowering

variable {p q : Ilp} {x : Assignment} {error : LoweringError}

theorem spares_run (hp : p.WellFormed) {c : Call} (hc : c.Over p) (hx : p.Solves x)
    (hasks : c.Asks x) (h : c.run p = .error error q) : Spares c.run p x := by
  cases c with
  | newBool name => cases h
  | newInt lower upper name => cases h
  | auxiliaryBool purpose => cases h
  | auxiliaryInt purpose lower upper => cases h
  | trueLiteral =>
    exact (clean_trueLiteral.attempts fun _ _ h => defines_of_trueLiteral hp h).spares x hx
      trivial |>.map _
  | constantLiteral value =>
    exact ((clean_constantLiteral value).attempts fun _ _ h =>
      (reifies_of_constantLiteral hp h).defines).spares x hx trivial |>.map _
  | enforceNonpositive e guards => exact (attempts_enforceNonpositive hp hc.2).spares x hx hasks
  | require r =>
    exact (attempts_enforce hp (List.forall_mem_nil _)).spares x hx fun _ => hasks
  | enforce r guards => exact (attempts_enforce hp hc.2).spares x hx hasks
  | reify r => exact ((attempts_reify hp).spares x hx trivial).map _
  | addClause ls guards => exact (attempts_addClause hp hc.1 hc.2).spares x hx hasks
  | addImplication a b =>
    have hls : ∀ l ∈ [a.negate, b], p.IsTruth l :=
      List.forall_mem_cons.2 ⟨Ilp.isTruth_negate.2 hc.1, List.forall_mem_singleton.2 hc.2⟩
    refine (attempts_addClause hp hls (List.forall_mem_nil _)).spares x hx fun _ => ?_
    simp only [anyHold_cons, anyHold_nil, or_false, hc.1.holds_negate hx]
    exact Decidable.imp_iff_not_or.1 hasks
  | addParity ls guards => exact (attempts_addParity hp hc.1 hc.2).spares x hx hasks
  | conjunction ls => exact ((attempts_conjunction hp hc).spares x hx trivial).map _
  | disjunction ls => exact ((attempts_disjunction hp hc).spares x hx trivial).map _
  | enforceDistinct guards forms =>
    exact (attempts_enforceDistinct hp hc.1 hc.2).spares x hx hasks
  | addMinimum target forms => exact (attempts_addExtremum hp hc.1 hc.2).spares x hx hasks
  | addMaximum target forms => exact (attempts_addExtremum hp hc.1 hc.2).spares x hx hasks
  | enforceElement index items target guards =>
    obtain ⟨⟨hindex, htarget⟩, hitems, hg⟩ := hc
    exact (attempts_enforceElement hp hg hindex htarget hitems).spares x hx hasks
  | encode e => exact ((attempts_encode hp).spares x hx trivial).map _
  | absolute e => exact ((attempts_absolute hp).spares x hx trivial).map _
  | product a b => exact ((attempts_product hp hc.1 hc.2).spares x hx trivial).map _
  | quotient a b => exact (spares_quotient hp hx).map _
  | remainder a b => exact (spares_remainder hp hx).map _
  | power base exponent => exact ((attempts_power hp hc).spares x hx trivial).map _
  | affineOf value => exact ((attempts_affineOf hp).spares x hx trivial).map _
  | literalOf value => exact ((attempts_literalOf hp hc).spares x hx trivial).map _
  | setObjective direction e => cases h

end Lowering

namespace Ilp.Reaches

variable {p q : Ilp} {limit : Nat} {c : Lowering.Call} {error : LoweringError}

/-- A call on a program that calls have built fails after it has appended some columns and rows:
every solution that satisfies what was asked extends to what it leaves behind, no kept encoding is
lost, and all kept encodings are shared from there on. -/
theorem failed_call_spares (hp : (empty limit).Reaches p) (hc : c.Over p)
    (h : c.run p = .error error q) :
    (∀ x, p.Solves x → c.Asks x → ∃ y, AgreeBelow p.columns.size x y ∧ q.Solves y) ∧
      (∀ entry ∈ p.encodings, entry ∈ q.encodings) ∧
        ∀ entry ∈ q.encodings, q.Shares limit entry.1 entry.2 := by
  have hwf : p.WellFormed := hp.wellFormed (.empty limit)
  have hafter : stateAfter c.run p = q := by
    unfold stateAfter
    rw [h]
  have hcall : p.Reaches q := by
    rw [← hafter]
    exact Reaches.refl.call c
  refine ⟨fun x hx hasks => ?_, fun entry hmem => hcall.mem_encodings hwf hmem,
    fun entry hmem => (hp.trans hcall).shares_of_mem hmem⟩
  obtain ⟨y, hxy, hy⟩ := Lowering.spares_run hwf hc hx hasks h
  rw [hafter] at hy
  exact ⟨y, hxy, hy⟩

/-- All-different fails at the second pair, because the bounds of the difference are no words; the
rows of the first pair and an encoding made before stay. -/
theorem failed_call_spares_of_distinct :
    let p := (empty 4096).afterCalls [.newInt 0 3 "x", .newInt 0 3 "y",
      .newInt (-9223372036854775808) 9223372036854775807 "z", .encode (.ofColumn 0)]
    let c : Lowering.Call := .enforceDistinct [] [.ofColumn 0, .ofColumn 1, .ofColumn 2]
    ∃ error q, c.run p = .error error q ∧ p.rows.size < q.rows.size ∧ q.encodings ≠ [] ∧
      (∀ x, p.Solves x → c.Asks x → ∃ y, AgreeBelow p.columns.size x y ∧ q.Solves y) ∧
        (∀ entry ∈ p.encodings, entry ∈ q.encodings) ∧
          ∀ entry ∈ q.encodings, q.Shares 4096 entry.1 entry.2 := by
  intro p c
  have hp : (empty 4096).Reaches p := Reaches.refl.afterCalls _
  have hc : c.Over p := ⟨List.forall_mem_nil _, by decide⟩
  have hfails : (match c.run p with
      | .error _ q => decide (p.rows.size < q.rows.size ∧ q.encodings ≠ [])
      | .ok _ _ => false) = true := by decide +kernel
  cases h : c.run p with
  | ok u q =>
    rw [h] at hfails
    cases hfails
  | error error q =>
    rw [h] at hfails
    obtain ⟨hrows, hkept⟩ := of_decide_eq_true hfails
    exact ⟨error, q, rfl, hrows, hkept, failed_call_spares hp hc h⟩

end Ilp.Reaches

end Linearization
