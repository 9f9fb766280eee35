import Linearization.Proofs.Translation.Safety
import Linearization.Solve.Run

/-!
# Solving without faults

A solve call ends in a report or in an error that says what is wrong with the input, whatever the
model contains: no column, argument or item that it looks up is missing, no divisor is zero and no
operation that is not checked leaves the range of a word (`Model.solve_faults`). There is one way
out of this: an enumeration limit beyond `Encoding.capacity` lets through domains whose lists of
values no address space holds (`Model.solve_faults_of_large_limit`).
-/

namespace Linearization

/-- Any translation of any expression; the only question is how it fails. -/
def Contract.unrestricted : Contract where
  Keeps _ := True
  Admits _ _ := True
  guarded := True
  keeps_of h _ _ _ := h
  admits_mono h _ := h
  admits_child h _ := h
  admits_all _ := trivial
  decompose _ _ _ _ := ⟨trivial, fun _ _ => trivial⟩

/-- Reading a solution back only looks at the first `n` values: the rows when they are checked, the
variables when they are written back, and the objective. A boolean variable is its column itself, so
its value is not subtracted from one. -/
structure Translation.ReadsBelow (t : Translation) (n : Nat) : Prop where
  rows : ∀ r ∈ t.program.rows, ∀ term ∈ r.terms, term.column < n
  images : ∀ v image, t.layout.get? v = some image →
    image.column < n ∧ ∀ l, image = .bool l → l.positive = true
  objective : ∀ direction e, t.program.objective = some (direction, e) → e.Below n

variable {α : Type} [Scalar α] {config : Config} {m : Model} {t : Translation} {f : Fault}
  {solver : String} {slots : Slots}

/-- An outcome can only fail to become a report because its values are missing. -/
theorem Translation.error_of_conclude {vars : List Var} {outcome : Outcome α} {e : SolveError}
    (h : (t.conclude solver vars outcome slots).1 = .error e) :
    e = .missingValues solver outcome.status := by
  unfold conclude at h
  dsimp only at h
  split at h
  · split at h
    · cases h
      rfl
    · cases h
  · cases h

namespace Model

theorem finishes_unrestricted (config : Config) (m : Model) :
    Translate.Finishes .unrestricted (Translate.model config m)
      (.start config.maxDomainEnumeration) :=
  Translate.finishes_model trivial fun _ _ => trivial

theorem prepare_cases (config : Config) (m : Model) :
    (∃ e, m.prepare config = .error (.invalidConfig e)) ∨
      m.prepare config = .error (.invalidProblem m.problems) ∨
        m.prepare config = (m.translate config).mapError .translation := by
  unfold prepare
  cases config.check with
  | error e => exact .inl ⟨e, rfl⟩
  | ok _ =>
    change _ ∨ (if m.problems.isEmpty then _ else _) = _ ∨ (if m.problems.isEmpty then _ else _) = _
    split
    · exact .inr (.inr rfl)
    · exact .inr (.inl rfl)

theorem translate_of_prepare {r : Except TranslationError Translation}
    (h : m.prepare config = r.mapError .translation) : m.translate config = r := by
  rcases prepare_cases config m with ⟨e, hm⟩ | hm | hm <;> rw [hm] at h
  · cases r <;> cases h
  · cases r <;> cases h
  · cases htranslate : m.translate config <;> rw [htranslate] at h <;> cases r <;> cases h <;> rfl

theorem readsBelow_of_prepare (h : m.prepare config = .ok t) :
    t.ReadsBelow t.program.columns.size := by
  obtain ⟨t', hrun, rfl⟩ := translate_eq_ok.1 (translate_of_prepare (r := .ok t) h)
  have hfinishes := finishes_unrestricted config m
  have hsound := hfinishes.holds.sound
  have hobjective := hfinishes.objective
  rw [stateAfter_of_ok hrun] at hsound hobjective
  refine ⟨hsound.program.rows, fun v image hv => ⟨hsound.column_lt hv, fun l hl => ?_⟩, hobjective⟩
  obtain ⟨himage, -⟩ := hsound.images v image hv
  rw [hl] at himage
  unfold Var.imageAt at himage
  split at himage
  · have hpositive : l = .ofColumn (Image.bool l).column := Image.bool.inj himage
    rw [hpositive]
    rfl
  · exact Image.noConfusion himage

/-- An error of a solve call is one of the preparation, one of the engine or a solution without
values. -/
theorem error_of_solveModel {engine : Ilp → Except SolveError (Outcome α)} {e : SolveError}
    (h : (Id.run (solveModel config m solver (fun p => pure (engine p)) slots)).1 = .error e) :
    m.prepare config = .error e ∨ (∃ p, engine p = .error e) ∨
      ∃ status, e = .missingValues solver status := by
  unfold solveModel at h
  cases hprepare : m.prepare config with
  | error e' =>
    rw [hprepare] at h
    cases h
    exact .inl rfl
  | ok t =>
    simp only [hprepare, pure_bind] at h
    cases hrun : engine t.program with
    | error e' =>
      rw [hrun] at h
      cases h
      exact .inr (.inl ⟨t.program, hrun⟩)
    | ok outcome =>
      rw [hrun] at h
      exact .inr (.inr ⟨outcome.status, Translation.error_of_conclude h⟩)

/-- Whatever the model, its decompositions and the configuration contain: if the engine itself does
not fail with a fault, a solve call ends with none but that of an overlong list, and if the engine
gives one value per column, every value that is read back is there. -/
theorem solve_faults (config : Config) (m : Model) (solver : String) (slots : Slots)
    (engine : Ilp → Except SolveError (Outcome α))
    (hengine : ∀ p f, engine p ≠ .error (.translation (.fault f)))
    (hvalues : ∀ p outcome values, engine p = .ok outcome → outcome.values = some values →
      values.size = p.columns.size) :
    (∀ f, (Id.run (solveModel config m solver (fun p => pure (engine p)) slots)).1 =
      .error (.translation (.fault f)) → f.IsOverlong config.maxDomainEnumeration) ∧
    ∀ t outcome values, m.prepare config = .ok t → engine t.program = .ok outcome →
      outcome.values = some values → t.ReadsBelow values.size := by
  refine ⟨fun f h => ?_, fun t outcome values ht ho hv => ?_⟩
  · rcases error_of_solveModel h with h | ⟨p, h⟩ | ⟨status, h⟩
    · obtain ⟨t', hrun⟩ := translate_eq_error.1 (translate_of_prepare (r := .error (.fault f)) h)
      exact ((finishes_unrestricted config m).explains _ t' hrun).fault trivial f rfl
    · exact absurd h (hengine p f)
    · cases h
  · rw [hvalues t.program outcome values ho hv]
    exact readsBelow_of_prepare ht

/-- A quotient in a decomposition, whose divisor is a variable that the decomposition introduces. -/
theorem solve_faults_of_ratio :
    let x : Var := ⟨⟨.declared 0, .int 0 9⟩, "x"⟩
    let y : Var := ⟨⟨.introduced 1, .int (-3) (-1)⟩, "y"⟩
    let ratio : Expr := .compare .eq (.op .div [.var x, .var y]) (.const (-4))
    let m : Model := { constraints := [.global (.defined "ratio" [.var x] [ratio] [y])] }
    let engine : Ilp → Except SolveError (Outcome Int) := fun p =>
      .ok ⟨.feasible, some (Array.replicate p.columns.size 0), 0⟩
    (∀ f, (Id.run (solveModel {} m "zeros" (fun p => pure (engine p)) {})).1 =
      .error (.translation (.fault f)) → f.IsOverlong 4096) ∧
    ∃ t, m.prepare {} = .ok t ∧ t.ReadsBelow t.program.columns.size := by
  intro x y ratio m engine
  have hvalues : ∀ p outcome values, engine p = .ok outcome → outcome.values = some values →
      values.size = p.columns.size := fun p outcome values ho hv => by
    cases ho
    cases hv
    exact Array.size_replicate
  obtain ⟨hfault, hread⟩ := solve_faults {} m "zeros" {} engine (fun _ _ => nofun) hvalues
  refine ⟨hfault, ?_⟩
  have hrun : (m.prepare {}).isOk = true := by decide +kernel
  cases ht : m.prepare {} with
  | error e =>
    rw [ht] at hrun
    cases hrun
  | ok t =>
    have h := hread t _ _ ht rfl rfl
    rw [Array.size_replicate] at h
    exact ⟨t, rfl, h⟩

/-- With a limit that lets every domain through, the item at a wide index needs a list that is too
long, although neither the configuration nor the model is refused. -/
theorem solve_faults_of_large_limit :
    let x : Var := ⟨⟨.declared 0, .int 0 1000000000000000000⟩, "x"⟩
    let item : Expr := .element [.const 1, .const 2] (.var x)
    let m : Model := { constraints := [.compare .eq item (.const 1)] }
    let config : Config := { maxDomainEnumeration := 18446744073709551615 }
    let engine : Ilp → Except SolveError (Outcome Int) := fun p =>
      .ok ⟨.feasible, some (Array.replicate p.columns.size 0), 0⟩
    config.check = .ok () ∧ m.problems = [] ∧
      (Id.run (solveModel config m "zeros" (fun p => pure (engine p)) {})).1 =
        .error (.translation (.fault (.capacity 1000000000000000001))) := ⟨rfl, rfl, rfl⟩

end Model

end Linearization
