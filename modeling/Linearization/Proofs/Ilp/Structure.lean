import Linearization.Proofs.Ilp.Composed
import Linearization.Proofs.Ilp.FailedCalls
import Linearization.Proofs.Translation.Operations

/-!
# The structure of programs

What can be said of a program that calls have built, without looking at its solutions. Every row is
fit for an engine and uses columns that exist; there is at most one true column, and it is fixed to
one. A call, failed or not, leaves the columns and rows before it as they are, the literals that it
returns stand on columns with bounds inside `[0, 1]`, and the columns that it makes on its own have
bounds in order (`Reaches.structure_kept`).

What one elementary step appends (`Ilp.Builds`) passes to every lowering, since all of them are
composed of such steps (`Composed.builds`).
-/

namespace Linearization

open Lowering

/-- The column that the true literal stands on. -/
def Column.alwaysTrue : Column := ⟨"_true", 1, 1, true⟩

/-- The call declares an integer with bounds out of order. -/
def Lowering.Call.DeclaresEmpty : Call → Prop
  | newInt lower upper _ | auxiliaryInt _ lower upper => upper < lower
  | _ => False

/-- The literals that a call returns. -/
def Lowering.Call.literals : Call → Lowering (List Literal)
  | newBool name => (fun l => [l]) <$> Lowering.newBool name
  | auxiliaryBool purpose => (fun l => [l]) <$> Lowering.auxiliaryBool purpose
  | trueLiteral => (fun l => [l]) <$> Lowering.trueLiteral
  | constantLiteral value => (fun l => [l]) <$> Lowering.constantLiteral value
  | reify r => (fun l => [l]) <$> Lowering.reify r
  | conjunction ls => (fun l => [l]) <$> Lowering.conjunction ls
  | disjunction ls => (fun l => [l]) <$> Lowering.disjunction ls
  | literalOf value => (fun l => [l]) <$> Lowering.literalOf value
  | encode e => List.map Prod.snd <$> Lowering.encode e
  | c => (fun _ => []) <$> c.run

namespace Ilp

/-- The true column is the only one of its kind. -/
def MarksTrue (p : Ilp) : Prop :=
  ∀ i : Nat, p.columns[i]? = some .alwaysTrue ↔ p.trueColumn = some i

/-- What a lowering may append: proper rows, and columns with bounds in order, of which none but the
marked one is a true column. -/
structure Builds (p q : Ilp) : Prop where
  rows : ∀ r ∈ q.rows, r ∈ p.rows ∨ r.Proper
  columns : ∀ (i : Nat) (c : Column), q.columns[i]? = some c →
    p.columns[i]? = some c ∨ c.lower ≤ c.upper
  marksTrue : p.MarksTrue → q.MarksTrue

namespace Builds

variable {p q s : Ilp} {c : Column} {r : Row}

theorem refl (p : Ilp) : p.Builds p := ⟨fun _ => .inl, fun _ _ => .inl, id⟩

theorem trans (h : p.Builds q) (h' : q.Builds s) : p.Builds s where
  rows r hr := (h'.rows r hr).elim (h.rows r) .inr
  columns i c hc := (h'.columns i c hc).elim (h.columns i c) .inr
  marksTrue hp := h'.marksTrue (h.marksTrue hp)

instance : Std.Refl Builds := ⟨refl⟩

instance : Trans Builds Builds Builds := ⟨trans⟩

theorem of_eq (hc : q.columns = p.columns) (hr : q.rows = p.rows)
    (ht : q.trueColumn = p.trueColumn) : p.Builds q where
  rows r h := .inl (hr ▸ h)
  columns i c h := .inl (hc ▸ h)
  marksTrue hp i := by rw [hc, ht, hp i]

end Builds

variable {p q : Ilp} {c : Column} {r : Row}

theorem ne_alwaysTrue_of_bool {name : String} : (⟨name, 0, 1, true⟩ : Column) ≠ .alwaysTrue := by
  simp [Column.alwaysTrue]

theorem ne_alwaysTrue_of_int {name : String} {lower upper : Int} :
    (⟨name, lower, upper, false⟩ : Column) ≠ .alwaysTrue := by
  simp [Column.alwaysTrue]

theorem MarksTrue.withColumn (hp : p.MarksTrue) (hc : c ≠ .alwaysTrue) :
    (p.withColumn c).MarksTrue := by
  intro i
  rw [getElem?_withColumn]
  show _ ↔ p.trueColumn = some i
  split
  · rename_i hi
    have hnone : p.columns[i]? = none := Array.getElem?_eq_none (Nat.le_of_eq hi.symm)
    rw [← hp i, hnone]
    simp [hc]
  · exact hp i

theorem MarksTrue.withTrue (hp : p.MarksTrue) (h : p.trueColumn = none) :
    (Lowering.withTrue p).MarksTrue := by
  intro i
  show (p.withColumn .alwaysTrue).columns[i]? = _ ↔ some p.columns.size = some i
  rw [getElem?_withColumn, Option.some_inj]
  split
  · rename_i hi
    exact iff_of_true rfl hi.symm
  · rename_i hi
    rw [hp i, h]
    exact iff_of_false nofun (Ne.symm hi)

theorem builds_withColumn (hle : c.lower ≤ c.upper) (hc : c ≠ .alwaysTrue) :
    p.Builds (p.withColumn c) where
  rows _ := .inl
  columns i d hd := by
    rw [getElem?_withColumn] at hd
    split at hd
    · cases hd
      exact .inr hle
    · exact .inl hd
  marksTrue hp := hp.withColumn hc

theorem builds_withRow (hr : r.Proper) : p.Builds (p.withRow r) where
  rows s hs := by
    rcases Array.mem_push.1 hs with hs | rfl
    · exact .inl hs
    · exact .inr hr
  columns _ _ := .inl
  marksTrue := id

theorem builds_withTrue (h : p.trueColumn = none) : p.Builds (Lowering.withTrue p) where
  rows _ := .inl
  columns i d hd := by
    replace hd : (p.withColumn .alwaysTrue).columns[i]? = some d := hd
    rw [getElem?_withColumn] at hd
    split at hd
    · cases hd
      exact .inr (Int.le_refl 1)
    · exact .inl hd
  marksTrue hp := hp.withTrue h

end Ilp

namespace Lowering

open Ilp

variable {α : Type} {m : Lowering α} {p q : Ilp} {c : Call}

theorem builds_trueLiteral : Keeps Builds Lowering.trueLiteral := by
  intro p
  unfold KeepsAt
  cases h : p.trueColumn with
  | some i =>
    rw [stateAfter_of_ok (trueLiteral_of_some h)]
    exact .refl p
  | none =>
    rw [stateAfter_of_ok (trueLiteral_of_none h)]
    exact builds_withTrue h

theorem Composed.builds (h : Composed m) : Keeps Builds m := by
  induction h with
  | pure a => exact .pure a
  | throw error => exact .throw error
  | @bind α β m f _ _ ihm ihf =>
    exact fun p => (ihm p).bind fun a q hrun => ihf a ⟨p, q, hrun⟩ q
  | @read α g _ =>
    refine Keeps.get.bind fun p => ?_
    show Keeps Builds (ofExcept (g p))
    cases g p with
    | ok a => exact .pure a
    | error error => exact .throw error
  | auxiliaryBool purpose => exact fun p => builds_withColumn Int.one_nonneg ne_alwaysTrue_of_bool
  | auxiliaryInt purpose hle => exact fun p => builds_withColumn hle ne_alwaysTrue_of_int
  | trueLiteral => exact builds_trueLiteral
  | addRow hr => exact fun p => builds_withRow hr
  | keep e encoding => exact fun p => .of_eq rfl rfl rfl
  | encode e _ ih =>
    refine (Keeps.get.bind fun p => ?_ : Keeps Builds (Lowering.bounds e)).bind fun b => ?_
    · show Keeps Builds (ofExcept (p.bounds e))
      cases p.bounds e with
      | ok b => exact .pure b
      | error error => exact .throw error
    dsimp only
    split
    · exact builds_trueLiteral.bind fun _ => .pure _
    · refine Keeps.get.bind fun p => ?_
      split
      · exact .pure _
      split
      · exact .throw _
      split
      · exact .throw _
      · exact ih b.1 b.2
  | setObjective direction e => exact fun p => .of_eq rfl rfl rfl

/-- The only bounds out of order are those that a caller declares. -/
theorem builds_run (hc : ¬ c.DeclaresEmpty) : Keeps Builds c.run := by
  cases c with
  | newBool name =>
    exact fun p => builds_withColumn Int.one_nonneg ne_alwaysTrue_of_bool
  | newInt lower upper name =>
    exact fun p => builds_withColumn (Int.not_lt.1 hc) ne_alwaysTrue_of_int
  | auxiliaryBool purpose => exact (Composed.auxiliaryBool purpose).builds.map _
  | auxiliaryInt purpose lower upper =>
    exact (Composed.auxiliaryInt purpose (Int.not_lt.1 hc)).builds.map _
  | trueLiteral => exact builds_trueLiteral.map _
  | constantLiteral value => exact (composed_constantLiteral value).builds.map _
  | enforceNonpositive e guards => exact (composed_enforceNonpositive e guards).builds
  | require r => exact (composed_enforce r []).builds
  | enforce r guards => exact (composed_enforce r guards).builds
  | reify r => exact (composed_reify r).builds.map _
  | addClause ls guards => exact (composed_addClause ls guards).builds
  | addImplication a b => exact (composed_addClause _ _).builds
  | addParity ls guards => exact (composed_addParity ls guards).builds
  | conjunction ls => exact (composed_conjunction ls).builds.map _
  | disjunction ls => exact (composed_disjunction ls).builds.map _
  | enforceDistinct guards forms => exact (composed_enforceDistinct guards forms).builds
  | addMinimum target forms => exact (composed_addExtremum target forms .le).builds
  | addMaximum target forms => exact (composed_addExtremum target forms .ge).builds
  | enforceElement index items target guards =>
    exact (composed_enforceElement index items target guards).builds
  | encode e => exact (composed_encode e).builds.map _
  | absolute e => exact (composed_absolute e).builds.map _
  | product a b => exact (composed_product a b).builds.map _
  | quotient a b => exact (composed_quotient a b).builds.map _
  | remainder a b => exact (composed_remainder a b).builds.map _
  | power base exponent => exact (composed_power base exponent).builds.map _
  | affineOf value => exact (composed_affineOf value).builds.map _
  | literalOf value => exact (composed_literalOf value).builds.map _
  | setObjective direction e => exact (Composed.setObjective direction e).builds

theorem stateAfter_of_declaresEmpty (hc : c.DeclaresEmpty) (p : Ilp) :
    ∃ name lower upper, stateAfter c.run p = p.withColumn ⟨name, lower, upper, false⟩ := by
  cases c with
  | newInt lower upper name => exact ⟨name, lower, upper, rfl⟩
  | auxiliaryInt purpose lower upper => exact ⟨_, lower, upper, rfl⟩
  | _ => exact hc.elim

/-! ## Literals -/

/-- Asking for the literals that a call returns does what the call does. -/
theorem stateAfter_literals (c : Call) (p : Ilp) :
    stateAfter c.literals p = stateAfter c.run p := by
  have hdiscard {β : Type} (m : Lowering β) (f : β → List Literal) :
      stateAfter (f <$> m) p = stateAfter (discard m) p :=
    (stateAfter_map m f p).trans (stateAfter_map m _ p).symm
  cases c with
  | newBool name => exact hdiscard _ _
  | auxiliaryBool purpose => exact hdiscard _ _
  | trueLiteral => exact hdiscard _ _
  | constantLiteral value => exact hdiscard _ _
  | reify r => exact hdiscard _ _
  | conjunction ls => exact hdiscard _ _
  | disjunction ls => exact hdiscard _ _
  | literalOf value => exact hdiscard _ _
  | encode e => exact hdiscard _ _
  | _ => exact stateAfter_map _ _ p

/-- The literals that a call about existing columns returns are truth values. -/
theorem isTruth_of_literals {ls : List Literal} (hp : p.WellFormed) (hc : c.Over p)
    (h : c.literals p = .ok ls q) : ∀ l ∈ ls, q.IsTruth l := by
  have hone {m : Lowering Literal} (hm : ∀ l, m p = .ok l q → q.IsTruth l)
      (h : ((fun l => [l]) <$> m) p = .ok ls q) : ∀ l ∈ ls, q.IsTruth l := by
    obtain ⟨l, hl, rfl⟩ := map_eq_ok.1 h
    exact List.forall_mem_singleton.2 (hm l hl)
  cases c with
  | newBool name =>
    refine hone (fun l hl => ?_) h
    obtain ⟨rfl, rfl⟩ := newBool_eq_ok hl
    exact ⟨_, p.getElem?_withColumn_size _, Int.le_refl 0, Int.le_refl 1⟩
  | auxiliaryBool purpose => exact hone (fun _ => isTruth_of_auxiliaryBool) h
  | trueLiteral => exact hone (fun _ => isTruth_of_trueLiteral hp) h
  | constantLiteral value => exact hone (fun _ hl => (reifies_of_constantLiteral hp hl).truth) h
  | reify r => exact hone (fun _ hl => (reifies_of_reify hp hl).truth) h
  | conjunction ks => exact hone (fun _ hl => (reifies_of_conjunction hp hc hl).truth) h
  | disjunction ks => exact hone (fun _ hl => (reifies_of_disjunction hp hc hl).truth) h
  | literalOf value => exact hone (fun _ hl => (reifies_of_literalOf hp hc hl).truth) h
  | encode e =>
    obtain ⟨encoding, hencode, rfl⟩ := map_eq_ok.1 h
    exact List.forall_mem_map.2 (encodes_of_encode hp hencode).1.truth
  | _ =>
    obtain ⟨-, -, rfl⟩ := map_eq_ok.1 h
    exact List.forall_mem_nil _

end Lowering

namespace Ilp

variable {p : Ilp} {limit : Nat}

/-- Every row is fit for an engine and uses columns that exist, and at most one column is a true
column, the marked one. -/
structure Structured (p : Ilp) : Prop where
  proper : ∀ r ∈ p.rows, r.Proper
  column_lt : ∀ r ∈ p.rows, ∀ t ∈ r.terms, t.column < p.columns.size
  marksTrue : p.MarksTrue

/-- The call leads from `p` to `q`: nothing before it changes, the literals that it returns are
truth values, and unless it declares a column without values, new columns have bounds in order. -/
structure Develops (p q : Ilp) (c : Call) : Prop where
  columns : p.columns.toList <+: q.columns.toList
  rows : p.rows.toList <+: q.rows.toList
  literals : ∀ ls r, c.literals p = .ok ls r → r = q ∧ ∀ l ∈ ls, q.IsTruth l
  ordered : ¬ c.DeclaresEmpty → ∀ (i : Nat) (column : Column), p.columns.size ≤ i →
    q.columns[i]? = some column → column.lower ≤ column.upper

namespace Reaches

theorem proper_and_marksTrue (h : (empty limit).Reaches p) :
    (∀ r ∈ p.rows, r.Proper) ∧ p.MarksTrue := by
  -- a call builds, or it declares a column that is no true column
  induction h with
  | refl =>
    refine ⟨fun r hr => ?_, fun i => ?_⟩
    · simp [empty] at hr
    · simp [empty]
  | @call q _ c ih =>
    by_cases hc : c.DeclaresEmpty
    · obtain ⟨name, lower, upper, heq⟩ := stateAfter_of_declaresEmpty hc q
      rw [heq]
      exact ⟨ih.1, ih.2.withColumn ne_alwaysTrue_of_int⟩
    · have hbuilds : q.Builds (stateAfter c.run q) := builds_run hc q
      exact ⟨fun r hr => (hbuilds.rows r hr).elim (ih.1 r) id, hbuilds.marksTrue ih.2⟩

theorem structured (h : (empty limit).Reaches p) : p.Structured where
  proper := h.proper_and_marksTrue.1
  column_lt := (h.wellFormed (.empty limit)).rows
  marksTrue := h.proper_and_marksTrue.2

/-- A call about existing columns and truth values, whether it fails or not. -/
theorem develops (h : (empty limit).Reaches p) {c : Call} (hc : c.Over p) :
    p.Develops (stateAfter c.run p) c where
  columns := (grows_call (h.wellFormed (.empty limit)) c).1.columns
  rows := (grows_call (h.wellFormed (.empty limit)) c).1.rows
  literals ls r hrun := by
    have hr : r = stateAfter c.run p := by
      rw [← stateAfter_literals, stateAfter_of_ok hrun]
    exact ⟨hr, hr ▸ isTruth_of_literals (h.wellFormed (.empty limit)) hc hrun⟩
  ordered hdeclares i column hi hcolumn := by
    have hbuilds : p.Builds (stateAfter c.run p) := builds_run hdeclares p
    refine (hbuilds.columns i column hcolumn).resolve_left fun hold => ?_
    exact Nat.not_lt.2 hi (Array.getElem?_eq_some_iff.1 hold).1

/-- The structure of a program that calls have built, and what one more call does to it. The columns
that translation makes for an item or an extremum have the bounds of a hull; they are in order. -/
theorem structure_kept (h : (empty limit).Reaches p) :
    p.Structured ∧ (∀ c : Call, c.Over p → p.Develops (stateAfter c.run p) c) ∧
      ∀ forms lower upper, Translate.hull p forms = .ok (some (lower, upper)) → lower ≤ upper :=
  ⟨h.structured, fun _ => h.develops, fun _ _ _ => Translate.le_of_hull⟩

/-- All-different fails at its second pair, in a program with a quotient and a true column. -/
theorem structure_kept_of_quotient :
    let p := (empty 4096).afterCalls [.newInt (-2) 3 "x", .newInt 1 2 "y",
      .quotient (.ofColumn 0) (.ofColumn 1), .trueLiteral,
      .newInt (-9223372036854775808) 9223372036854775807 "z"]
    let c : Call := .enforceDistinct [] [.ofColumn 0, .ofColumn 1, .ofColumn 8]
    let q := stateAfter c.run p
    p.trueColumn = some 7 ∧ (p.rows.size, q.rows.size) = (12, 14) ∧ p.Structured ∧
      p.Develops q c ∧ q.Structured := by
  intro p c q
  have hp : (empty 4096).Reaches p := Reaches.refl.afterCalls _
  have hover : (∀ g ∈ ([] : List Literal), p.IsTruth g) ∧
      ∀ e ∈ [.ofColumn 0, .ofColumn 1, .ofColumn 8], Affine.Below p.columns.size e :=
    ⟨List.forall_mem_nil _, by decide +kernel⟩
  obtain ⟨hstructured, hdevelops, -⟩ := structure_kept hp
  exact ⟨by decide +kernel, by decide +kernel, hstructured, hdevelops c hover,
    (structure_kept (hp.call c)).1⟩

end Reaches

end Ilp

end Linearization
