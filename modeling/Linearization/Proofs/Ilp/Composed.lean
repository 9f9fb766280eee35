import Linearization.Proofs.Ilp.Choice
import Linearization.Proofs.Ilp.Coerce
import Linearization.Proofs.Ilp.Division

/-!
# What lowerings are composed of

Every lowering is put together from a few elementary steps: it reads the bounds of columns, it
fails, it appends a column with ordered bounds or a row that is fit for an engine, it asks for the
true literal, it keeps an encoding, it installs an objective. `Composed m` says this of the lowering `m`,
with one lemma for every lowering. What every elementary step does, and what passes from the parts
of a sequence to the whole, then holds of all lowerings by one induction.

The one step that looks at more than bounds is `encode`: it asks whether the encoding is kept
already, and whether the domain is too large. What it does after that is composed again
(`makeEncoding`).
-/

namespace Linearization

/-- The row has terms, in increasing column order and with coefficients other than zero, and at
least one of its sides is closed. -/
structure Row.Proper (r : Row) : Prop where
  terms_ne_nil : r.terms ≠ []
  sorted : Term.Sorted r.terms
  coefficient_ne_zero : ∀ t ∈ r.terms, t.coefficient ≠ 0
  closed : r.lower.isSome ∨ r.upper.isSome

namespace Ilp

variable {α : Type} {p q : Ilp} {e : Affine}

/-- The columns of both programs have the same bounds. -/
def SameBounds (p q : Ilp) : Prop :=
  ∀ i : Nat, p.columns[i]?.map (fun c => (c.lower, c.upper)) =
    q.columns[i]?.map fun c => (c.lower, c.upper)

/-- The bounds of the columns are all that is looked at. -/
def ReadsBounds (g : Ilp → Except LoweringError α) : Prop := ∀ p q, p.SameBounds q → g p = g q

theorem SameBounds.of_columns (h : p.columns = q.columns) : p.SameBounds q := fun i => by rw [h]

theorem SameBounds.cases (h : p.SameBounds q) (i : Nat) :
    (p.columns[i]? = none ∧ q.columns[i]? = none) ∨
      ∃ c d, p.columns[i]? = some c ∧ q.columns[i]? = some d ∧ c.lower = d.lower ∧
        c.upper = d.upper := by
  have hi := h i
  cases hp : p.columns[i]? with
  | none =>
    rw [hp, Option.map_none] at hi
    exact .inl ⟨rfl, Option.map_eq_none_iff.1 hi.symm⟩
  | some c =>
    rw [hp, Option.map_some] at hi
    obtain ⟨d, hd, heq⟩ := Option.map_eq_some_iff.1 hi.symm
    rw [Prod.mk.injEq] at heq
    exact .inr ⟨c, d, rfl, hd, heq.1.symm, heq.2.symm⟩

theorem readsBounds_boundsFrom (ts : List Term) (interval : Int × Int) :
    ReadsBounds fun p => p.boundsFrom ts interval := by
  intro p q h
  induction ts generalizing interval with
  | nil => rfl
  | cons t ts ih =>
    dsimp only at ih ⊢
    rw [boundsFrom, boundsFrom]
    rcases h.cases t.column with ⟨hp, hq⟩ | ⟨c, d, hp, hq, hl, hu⟩
    · rw [hp, hq]
    · rw [hp, hq]
      dsimp only
      rw [hl, hu, ih]

theorem readsBounds_bounds (e : Affine) : ReadsBounds fun p => p.bounds e := fun p q h => by
  have hfrom : p.boundsFrom e.terms (e.constant, e.constant) = q.boundsFrom e.terms _ :=
    readsBounds_boundsFrom _ _ p q h
  dsimp only
  rw [bounds, bounds, hfrom]

theorem readsBounds_truth (r : Relation) : ReadsBounds fun p => p.truth r := fun p q h => by
  have hbounds : ∀ e, p.bounds e = q.bounds e := fun e => readsBounds_bounds e p q h
  dsimp only
  rw [truth, truth]
  simp only [hbounds]

theorem readsBounds_literalView (e : Affine) : ReadsBounds fun p => p.literalView e := by
  intro p q h
  dsimp only
  unfold literalView
  split
  · rename_i t _
    rcases h.cases t.column with ⟨hp, hq⟩ | ⟨c, d, hp, hq, hl, hu⟩
    · rw [hp, hq]
    · rw [hp, hq]
      dsimp only
      rw [hl, hu]
  · rfl

end Ilp

namespace Lowering

open Ilp

/-- The encoding of a form that has none yet: its literals, their two rows, and keeping it. -/
def makeEncoding (e : Affine) (lower upper : Int) : Lowering Encoding := do
  let (encoding, total, channel) ← encodeFrom (upper - lower + 1).toNat lower (.const 0) e
  addZero (← total.minus (.const 1))
  addZero channel
  modify fun p => { p with encodings := (e, encoding) :: p.encodings }
  return encoding

/-- The lowering is put together from elementary steps. The rest of a sequence only has to be so for
what the first part can return. -/
inductive Composed : {α : Type} → Lowering α → Prop where
  | pure {α : Type} (a : α) : Composed (Pure.pure a)
  | throw {α : Type} (error : LoweringError) : Composed (MonadExcept.throw error : Lowering α)
  | bind {α β : Type} {m : Lowering α} {f : α → Lowering β} (hm : Composed m)
      (hf : ∀ a, (∃ p q, m p = .ok a q) → Composed (f a)) : Composed (m >>= f)
  | read {α : Type} {g : Ilp → Except LoweringError α} (hg : ReadsBounds g) :
      Composed (MonadState.get >>= fun p => (liftM (g p) : Lowering α))
  | auxiliaryBool (purpose : String) : Composed (Lowering.auxiliaryBool purpose)
  | auxiliaryInt (purpose : String) {lower upper : Int} (h : lower ≤ upper) :
      Composed (Lowering.auxiliaryInt purpose lower upper)
  | trueLiteral : Composed Lowering.trueLiteral
  | addRow {r : Row} (hr : r.Proper) : Composed (Lowering.addRow r)
  | keep (e : Affine) (encoding : Encoding) :
      Composed (modify fun p => { p with encodings := (e, encoding) :: p.encodings })
  | encode (e : Affine) (h : ∀ lower upper, Composed (makeEncoding e lower upper)) :
      Composed (Lowering.encode e)
  | setObjective (direction : Direction) (e : Affine) :
      Composed (Lowering.setObjective direction e)

variable {α β : Type} {a b e target : Affine} {l : Literal} {r : Relation}
  {ls guards : List Literal} {forms items : List Affine}

namespace Composed

/-- A check is a reading that looks at nothing. -/
theorem liftM (x : Except LoweringError α) : Composed (MonadLiftT.monadLift x : Lowering α) :=
  read (g := fun _ => x) fun _ _ _ => rfl

theorem check {x : Except LoweringError α} {f : α → Lowering β}
    (hf : ∀ a, x = .ok a → Composed (f a)) :
    Composed ((MonadLiftT.monadLift x : Lowering α) >>= f) := by
  refine (liftM x).bind fun a ha => hf a ?_
  obtain ⟨p, q, h⟩ := ha
  exact (liftM_eq_ok.1 h).1

theorem checks {γ : Type} {g : α → γ → Except LoweringError α} {f : α → Lowering β}
    (hf : ∀ c, Composed (f c)) (as : List γ) (c : α) :
    Composed (as.foldlM (fun c a => (MonadLiftT.monadLift (g c a) : Lowering α)) c >>= f) := by
  induction as generalizing c with
  | nil => exact hf c
  | cons a as ih =>
    rw [List.foldlM_cons, bind_assoc]
    exact check fun c _ => ih c

/-- What follows is chosen by something that was read. -/
theorem reading {g : Ilp → Except LoweringError α} {f : α → Lowering β} (hg : ReadsBounds g)
    (hf : ∀ a p, g p = .ok a → Composed (f a)) :
    Composed (MonadState.get >>= fun p => (MonadLiftT.monadLift (g p) : Lowering α) >>= f) := by
  rw [← bind_assoc]
  refine (read hg).bind fun a ha => ?_
  obtain ⟨p, q, h⟩ := ha
  obtain ⟨_, s, hget, hlift⟩ := bind_eq_ok.1 h
  exact hf a _ (liftM_eq_ok.1 hlift).1

theorem bounds {f : Int × Int → Lowering β}
    (hf : ∀ lower upper, lower ≤ upper → Composed (f (lower, upper))) :
    Composed (Lowering.bounds e >>= f) := by
  unfold Lowering.bounds
  rw [bind_assoc]
  exact reading (readsBounds_bounds e) fun b p h => hf b.1 b.2 (le_of_bounds h)

theorem forM {f : α → Lowering PUnit} (hf : ∀ a, Composed (f a)) :
    ∀ as : List α, Composed (as.forM f)
  | [] => .pure _
  | a :: as => by
    rw [List.forM_eq_forM, List.forM_cons]
    exact (hf a).bind fun _ _ => forM hf as

theorem andThen {m : Lowering α} {n : Lowering β} (hm : Composed m) (hn : Composed n) :
    Composed (m >>= fun _ => n) := hm.bind fun _ _ => hn

end Composed

open Composed

/-! ## Guarded relations -/

theorem composed_constantLiteral (b : Bool) : Composed (constantLiteral b) :=
  Composed.trueLiteral.bind fun _ _ => .pure _

theorem composed_addContradiction : Composed addContradiction :=
  Composed.trueLiteral.bind fun t _ => .addRow
    { terms_ne_nil := List.cons_ne_nil _ _
      sorted := List.pairwise_singleton _ _
      coefficient_ne_zero := by simp
      closed := .inr rfl }

/-- The row of a form that has columns. -/
theorem proper_of_affine {lower upper : Option Int} (he : ¬ e.terms.isEmpty)
    (h : lower.isSome ∨ upper.isSome) : Row.Proper ⟨e.terms, lower, upper⟩ :=
  ⟨by simpa using he, e.sorted, e.coefficient_ne_zero, h⟩

theorem composed_addUnlessImplied (implied : Int → Int → Bool) (least : Int → Option Int)
    (e : Affine) : Composed (addUnlessImplied implied least e) := by
  refine .bounds fun lower upper _ => ?_
  dsimp only
  split
  · exact .pure _
  split
  · exact composed_addContradiction
  · rename_i he
    exact .check fun side _ => .addRow (proper_of_affine he (.inr rfl))

theorem composed_enforceNonpositive (e : Affine) (guards : List Literal) :
    Composed (enforceNonpositive e guards) := by
  refine .bounds fun lower upper _ => ?_
  dsimp only
  split
  · exact .pure _
  · exact .check fun d _ => composed_addUnlessImplied _ _ d

theorem composed_enforceNonpositive_plus (e : Affine) (guards : List Literal) :
    Composed (do enforceNonpositive (← e.plus (.const 1)) guards) :=
  .check fun d _ => composed_enforceNonpositive d guards

theorem composed_enforceNonzero (e : Affine) (guards : List Literal) :
    Composed (enforceNonzero e guards) := by
  refine .bounds fun lower upper _ => ?_
  dsimp only
  split
  · exact .pure _
  split
  · exact .check fun n _ => composed_enforceNonpositive_plus n guards
  split
  · exact composed_enforceNonpositive_plus e guards
  · refine (Composed.auxiliaryBool _).bind fun below _ => .check fun d _ => ?_
    exact (composed_enforceNonpositive d _).andThen
      (.check fun n _ => composed_enforceNonpositive_plus n _)

theorem composed_enforce (r : Relation) (guards : List Literal) : Composed (enforce r guards) := by
  refine .check fun d _ => ?_
  cases r.op with
  | le => exact composed_enforceNonpositive d guards
  | lt => exact composed_enforceNonpositive_plus d guards
  | ge => exact .check fun n _ => composed_enforceNonpositive n guards
  | gt => exact .check fun n _ => composed_enforceNonpositive_plus n guards
  | eq =>
    dsimp only
    split
    · exact composed_addUnlessImplied _ _ d
    · exact (composed_enforceNonpositive d guards).andThen
        (.check fun n _ => composed_enforceNonpositive n guards)
  | ne => exact composed_enforceNonzero d guards

theorem composed_reify (r : Relation) : Composed (reify r) := by
  refine .reading (readsBounds_truth r) fun value _ _ => ?_
  cases value with
  | some value => exact composed_constantLiteral value
  | none =>
    exact (Composed.auxiliaryBool _).bind fun l _ => (composed_enforce r [l]).andThen
      ((composed_enforce r.negate [l.negate]).andThen (.pure l))

/-! ## Clauses -/

theorem composed_addClause (ls guards : List Literal) : Composed (addClause ls guards) :=
  .checks (fun e => composed_enforceNonpositive e guards) ls _

theorem composed_addParity (ls guards : List Literal) : Composed (addParity ls guards) := by
  unfold addParity
  split
  · exact composed_addClause [] guards
  · refine (Composed.auxiliaryInt _ (Int.natCast_nonneg _)).bind fun half _ => ?_
    exact .checks (fun total => .check fun parity _ => composed_enforce _ guards) ls _

theorem composed_gate (purpose : String) (single : Literal → Literal → List Literal)
    (whole : Literal → List Literal) (ls : List Literal) :
    Composed (gate purpose single whole ls) :=
  (Composed.auxiliaryBool purpose).bind fun l _ =>
    (Composed.forM (fun k => composed_addClause (single l k) []) ls).andThen
      ((composed_addClause (whole l) []).andThen (.pure l))

theorem composed_conjunction (ls : List Literal) : Composed (conjunction ls) := by
  unfold conjunction
  split
  · exact composed_constantLiteral true
  · exact .pure _
  · exact composed_gate "and" (fun all l => [all.negate, l])
      (fun all => ls.map Literal.negate ++ [all]) ls

theorem composed_disjunction (ls : List Literal) : Composed (disjunction ls) := by
  unfold disjunction
  split
  · exact composed_constantLiteral false
  · exact .pure _
  · exact composed_gate "or" (fun any l => [l.negate, any]) (fun any => ls ++ [any.negate]) ls

/-! ## Encodings and choices -/

theorem composed_encodeFrom (count : Nat) (value : Int) (total channel : Affine) :
    Composed (encodeFrom count value total channel) := by
  induction count generalizing value total channel with
  | zero => exact .pure _
  | succ count ih =>
    exact (Composed.auxiliaryBool _).bind fun l _ => .check fun _ _ => .check fun _ _ =>
      .check fun _ _ => (ih _ _ _).bind fun _ _ => .pure _

theorem composed_encode (e : Affine) : Composed (encode e) := by
  refine .encode e fun lower upper => (composed_encodeFrom _ _ _ _).bind fun made _ => ?_
  exact .check fun d _ => (composed_addUnlessImplied _ _ d).andThen
    ((composed_addUnlessImplied _ _ _).andThen ((Composed.keep e _).andThen (.pure _)))

theorem composed_enforceDistinct (guards : List Literal) (forms : List Affine) :
    Composed (enforceDistinct guards forms) := by
  induction forms with
  | nil => exact .pure _
  | cons e es ih =>
    exact (Composed.forM (fun other => composed_enforce ⟨e, .ne, other⟩ guards) es).andThen ih

theorem composed_addWitnesses (target : Affine) (op : Comparison) (forms : List Affine) :
    Composed (addWitnesses target op forms) := by
  induction forms with
  | nil => exact .pure _
  | cons e es ih =>
    exact (composed_enforce _ []).andThen ((Composed.auxiliaryBool _).bind fun witness _ =>
      (composed_enforce _ [witness]).andThen (ih.bind fun _ _ => .pure _))

theorem composed_addExtremum (target : Affine) (forms : List Affine) (op : Comparison) :
    Composed (addExtremum target forms op) :=
  (composed_addWitnesses target op forms).bind fun ls _ => composed_addClause ls []

theorem composed_selectEach (items : List Affine) (target : Affine) (guards : List Literal)
    (encoding : Encoding) : Composed (selectEach items target guards encoding) := by
  induction encoding with
  | nil => exact .pure _
  | cons entry rest ih =>
    obtain ⟨position, selected⟩ := entry
    rw [selectEach]
    split
    · exact (composed_enforce _ _).andThen ih
    · exact (composed_addClause _ _).andThen ih

theorem composed_enforceElement (index : Affine) (items : List Affine) (target : Affine)
    (guards : List Literal) : Composed (enforceElement index items target guards) :=
  (composed_encode index).bind fun encoding _ => composed_selectEach items target guards encoding

/-! ## Arithmetic -/

theorem composed_absolute (e : Affine) : Composed (absolute e) := by
  refine .bounds fun lower upper _ => ?_
  dsimp only
  split
  · exact .pure _
  split
  · exact .liftM _
  · refine .check fun atLower _ => (Composed.auxiliaryInt _ (by omega)).bind fun result _ => ?_
    exact (Composed.auxiliaryBool _).bind fun l _ => (composed_enforce _ [l]).andThen
      (.check fun n _ => (composed_enforce _ [l.negate]).andThen (.pure _))

theorem composed_literalTimes (l : Literal) (e : Affine) : Composed (literalTimes l e) :=
  .bounds fun lower upper h => (Composed.auxiliaryInt _ (by omega)).bind fun result _ =>
    (composed_enforce _ [l]).andThen ((composed_enforce _ [l.negate]).andThen (.pure _))

theorem composed_multiplyEach (result : Nat) (e : Affine) (encoding : Encoding) :
    Composed (multiplyEach result e encoding) := by
  induction encoding with
  | nil => exact .pure _
  | cons entry rest ih => exact .check fun d _ => (composed_enforce _ _).andThen ih

theorem composed_encodedProduct (a b : Affine) : Composed (encodedProduct a b) := by
  refine .bounds fun aLower aUpper _ => .bounds fun bLower bUpper _ => ?_
  refine .check fun lower hlower => .check fun upper hupper => ?_
  refine (composed_encode _).bind fun encoding _ => ?_
  have hle : lower ≤ upper := by
    rw [checked_eq_ok hlower, checked_eq_ok hupper]
    simp only [List.foldl_cons, List.foldl_nil]
    omega
  exact (Composed.auxiliaryInt _ hle).bind fun result _ =>
    (composed_multiplyEach _ _ _).andThen (.pure _)

theorem composed_product (a b : Affine) : Composed (product a b) := by
  unfold product
  split
  · exact .liftM _
  · exact .liftM _
  · refine .reading (readsBounds_literalView a) fun l _ _ => ?_
    cases l with
    | some l => exact composed_literalTimes l b
    | none =>
      refine .reading (readsBounds_literalView b) fun l _ _ => ?_
      cases l with
      | some l => exact composed_literalTimes l a
      | none => exact composed_encodedProduct a b

theorem composed_divisorCases (b : Affine) : Composed (divisorCases b) := by
  unfold divisorCases
  split
  · exact .pure _
  · exact (composed_encode b).bind fun _ _ => .pure _

theorem composed_divideEach (a : Affine) (quotient remainder : Nat)
    (cases : List (Int × List Literal)) : Composed (divideEach a quotient remainder cases) := by
  induction cases with
  | nil => exact .pure _
  | cons entry rest ih =>
    exact .check fun rebuilt _ => (composed_enforce _ _).andThen (.check fun atDivisor _ =>
      .check fun bound _ => (composed_enforce _ _).andThen (.check fun least _ =>
        (composed_enforce _ _).andThen ih))

theorem composed_alignSign (a : Affine) (lower upper : Int) (remainder : Nat) :
    Composed (alignSign a lower upper remainder) := by
  unfold alignSign
  split
  · exact (composed_reify _).bind fun l _ =>
      (composed_enforce _ [l]).andThen (composed_enforce _ [l.negate])
  · exact .pure _

/-- The column of the quotient reaches as far below zero as above it, and that of the remainder
reaches from zero to a side that the dividend has. -/
theorem composed_variableDivision (a b : Affine) : Composed (variableDivision a b) := by
  refine .bounds fun bLower bUpper _ => ?_
  dsimp only
  split
  · exact .throw _
  split
  · exact .throw _
  refine (composed_divisorCases b).bind fun cases _ => .check fun atLower hl =>
    .check fun atUpper hu => .bounds fun aLower aUpper _ => .check fun fromLower hal =>
      .check fun fromUpper hau => ?_
  dsimp only
  split
  · exact .throw _
  rename_i hzero
  refine .check fun quotientBound hq => .check fun most hmost => .check fun leastQuotient hlq => ?_
  have hlower := checkedAbs_eq_ok hl
  have hupper := checkedAbs_eq_ok hu
  have hfrom := checkedAbs_eq_ok hal
  have hto := checkedAbs_eq_ok hau
  have hquotient : 0 ≤ quotientBound := by
    rw [plain_eq_ok hq]
    exact Int.tdiv_nonneg (by omega) (by omega)
  have hmost' := plain_eq_ok hmost
  have hleast := plain_eq_ok hlq
  refine (Composed.auxiliaryInt _ (by omega)).bind fun quotient _ => ?_
  refine .check fun leastRemainder hlr => ?_
  have hremainder := plain_eq_ok hlr
  refine (Composed.auxiliaryInt _ (by split at hremainder <;> split <;> omega)).bind
    fun remainder _ => ?_
  exact (composed_alignSign _ _ _ _).andThen
    ((composed_divideEach _ _ _ _).andThen (.pure _))

theorem composed_divide (a b : Affine) : Composed (divide a b) := by
  unfold divide
  split
  · split
    · exact .throw _
    · exact .check fun _ _ => .pure _
  · exact composed_variableDivision a b

theorem composed_quotient (a b : Affine) : Composed (quotient a b) :=
  (composed_divide a b).bind fun _ _ => .pure _

theorem composed_remainder (a b : Affine) : Composed (remainder a b) :=
  (composed_divide a b).bind fun _ _ => .pure _

theorem composed_repeatedProduct (base : Affine) (count : Nat) (acc : Affine) :
    Composed (repeatedProduct base count acc) := by
  induction count generalizing acc with
  | zero => exact .pure _
  | succ count ih => exact (composed_product acc base).bind fun acc _ => ih acc

theorem composed_power (base : Affine) (exponent : Int) : Composed (power base exponent) := by
  unfold power
  split
  · exact .throw _
  split
  · exact .check fun _ _ => .pure _
  · exact composed_repeatedProduct base _ _

/-! ## Coercions -/

theorem composed_booleanView (e : Affine) : Composed (booleanView e) := by
  refine .reading (readsBounds_literalView e) fun l _ _ => ?_
  cases l with
  | some l => exact .pure l
  | none =>
    refine .bounds fun lower upper _ => ?_
    dsimp only
    split
    · exact composed_reify _
    · exact .throw _

theorem composed_affineOf (v : Lowered) : Composed (affineOf v) := by
  cases v with
  | relation r => exact (composed_reify r).bind fun _ _ => .pure _
  | sequence items => exact .throw _
  | _ => exact .pure _

theorem composed_literalOf (v : Lowered) : Composed (literalOf v) := by
  cases v with
  | const c => exact composed_constantLiteral _
  | literal l => exact .pure l
  | column i => exact composed_booleanView _
  | affine e => exact composed_booleanView e
  | relation r => exact composed_reify r
  | sequence items => exact .throw _

end Lowering

end Linearization
