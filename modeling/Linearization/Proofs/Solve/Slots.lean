import Linearization.Proofs.Solve.Faults

/-!
# Solving touches the slots of the model's variables only

A solve call that fails, at whatever stage, leaves all slots as they were, and so does one that ends
without a solution. With a solution it sets the slots of the variables of the model, each to the
rounded value of the column of its own, and no others (`Model.solve_atomic`). The engine is run when
everything before it has succeeded, and once.

Three lists have to line up: the variables that are found in the model, without repetitions; the
columns, of which these variables get the first ones in the same order; and the slots that are
written. What a decomposition registers comes later and is not in the first list.
-/

namespace Linearization

open Linearization.Valuation (keysOf)

/-! ## Variables and columns -/

namespace Draft

variable {t : Draft} {v : Var} {vs : List Var}

/-- New variables get the next columns in their order, with their names and bounds. -/
theorem places_withVars (hnodup : (keysOf vs).Nodup) (hfresh : ∀ w ∈ vs, ¬ t.layout.Has w)
    {i : Nat} (hi : vs[i]? = some v) :
    (t.withVars vs).layout.get? v = some (v.imageAt (t.program.columns.size + i)) ∧
      (t.withVars vs).program.columns[t.program.columns.size + i]? = some v.toColumn := by
  induction vs generalizing t i with
  | nil => cases hi
  | cons w vs ih =>
    rw [keysOf, List.map_cons, List.nodup_cons] at hnodup
    rw [List.forall_mem_cons] at hfresh
    have hwithVar := withVar_of_not_has hfresh.1
    show ((t.withVar w).withVars vs).layout.get? v = _ ∧
      ((t.withVar w).withVars vs).program.columns[_]? = _
    cases i with
    | zero =>
      cases hi
      have hgrows := (t.withVar v).grows_withVars vs
      refine ⟨hgrows.layout v _ ?_, hgrows.program.column ?_⟩
      · rw [hwithVar]
        show (t.layout.insert v _).get? v = _
        rw [Layout.get?_insert, if_pos rfl, Nat.add_zero]
      · rw [hwithVar]
        exact t.program.getElem?_withColumn_size _
    | succ i =>
      have hsize : (t.withVar w).program.columns.size = t.program.columns.size + 1 := by
        rw [hwithVar]
        exact t.program.size_withColumn _
      have hnext := ih (t := t.withVar w) hnodup.2 (fun u hu hhas => ?_) hi
      · rwa [hsize, Nat.add_assoc, Nat.add_comm 1 i] at hnext
      rcases has_withVar.1 hhas with heq | hhas
      · exact hnodup.1 (List.mem_map.2 ⟨u, hu, heq.symm⟩)
      · exact hfresh.2 u hu hhas

end Draft

namespace Translation

variable {α : Type} [Scalar α] {t : Translation} {v : Var} {vs : List Var} {values : Nat → α}
  {slots : Slots} {k : VarKey}

/-! ## Writing back -/

theorem writeBack_cons (t : Translation) (values : Nat → α) (v : Var) (vs : List Var)
    (slots : Slots) :
    t.writeBack values (v :: vs) slots = t.writeBack values vs (match t.layout.get? v with
      | some image => slots.set v.toVarKey (image.value values)
      | none => slots) := rfl

theorem get?_writeBack_of_not_mem (hk : k ∉ keysOf vs) :
    (t.writeBack values vs slots).get? k = slots.get? k := by
  induction vs generalizing slots with
  | nil => rfl
  | cons v vs ih =>
    rw [keysOf, List.map_cons, List.mem_cons, not_or] at hk
    rw [writeBack_cons, ih hk.2]
    cases t.layout.get? v with
    | none => rfl
    | some image => rw [Slots.get?_set, if_neg hk.1]

/-- The last variable of the identity writes. -/
theorem get?_writeBack_of_mem {image : Image} (hv : v.toVarKey ∈ keysOf vs)
    (himage : t.layout.get? v = some image) :
    (t.writeBack values vs slots).get? v.toVarKey = some (image.value values) := by
  induction vs generalizing slots with
  | nil => cases hv
  | cons w vs ih =>
    rw [writeBack_cons]
    by_cases hlater : v.toVarKey ∈ keysOf vs
    · exact ih hlater
    · have hkey : v.toVarKey = w.toVarKey := (List.mem_cons.1 hv).resolve_right hlater
      rw [get?_writeBack_of_not_mem hlater, ← Layout.get?_congr hkey, himage, Slots.get?_set,
        if_pos hkey]

end Translation

theorem Var.value_imageAt {α : Type} [Scalar α] (v : Var) (column : Nat) (values : Nat → α) :
    (v.imageAt column).value values = Scalar.toWord (values column) := by
  unfold Var.imageAt
  split <;> rfl

/-- Whatever is translated, images stay as they are in the layout. -/
def Contract.preserving (r : Layout) : Contract where
  Keeps t := r.Grows t.layout
  Admits _ _ := True
  guarded := False
  keeps_of h _ hlayout _ := hlayout ▸ h
  admits_mono h _ := h
  admits_child h _ := h
  admits_all _ := trivial
  decompose {t _ _} _ h _ _ :=
    ⟨h.trans (t.grows_withVars _).layout, fun _ _ => trivial⟩

namespace Model

variable {α : Type} [Scalar α] {config : Config} {m : Model} {t : Translation} {solver : String}
  {slots after : Slots} {v : Var} {i : Nat}

/-- The variables of a model get the first columns, in the order in which they are found. -/
theorem get?_of_translate (h : m.translate config = .ok t) (hi : m.vars[i]? = some v) :
    t.layout.get? v = some (v.imageAt i) ∧ ∃ c, t.program.columns[i]? = some c ∧
      c.lower = v.domain.lower ∧ c.upper = v.domain.upper := by
  obtain ⟨s, hrun, rfl⟩ := translate_eq_ok.1 h
  have hregistered : (Translate.registered config.maxDomainEnumeration m).layout.get? v =
      some (v.imageAt i) := by
    have hfresh : ∀ w ∈ m.vars, ¬ (Draft.start config.maxDomainEnumeration).layout.Has w :=
      fun w _ => Bool.false_ne_true
    have hnodup : (keysOf m.vars).Nodup := nodup_keysOf_firstOfEach _
    rw [(Draft.places_withVars hnodup hfresh hi).1]
    exact congrArg (fun n => some (v.imageAt n)) (Nat.zero_add i)
  have hfinishes : Translate.Finishes (.preserving (Translate.registered _ m).layout)
      (Translate.model config m) (.start config.maxDomainEnumeration) :=
    Translate.finishes_model (Layout.Grows.refl _) fun _ _ => trivial
  obtain ⟨hsound, hkept⟩ := hfinishes.holds
  rw [stateAfter_of_ok hrun] at hsound hkept
  have himage : s.layout.get? v = some (v.imageAt i) := hkept v _ hregistered
  have hcolumn := (hsound.images v _ himage).2
  rw [Var.column_imageAt] at hcolumn
  exact ⟨himage, hcolumn⟩

/-- The slots after a solution: those of the variables of the model have the rounded values of their
own columns, and all others are as before. -/
structure WritesBack (m : Model) (t : Translation) (values : Array α) (slots after : Slots) :
    Prop where
  own : ∀ i v, m.vars[i]? = some v → t.layout.get? v = some (v.imageAt i) ∧
    ∃ x, values[i]? = some x ∧ after.get? v.toVarKey = some (Scalar.toWord x)
  others : ∀ k, k ∉ keysOf m.vars → after.get? k = slots.get? k

theorem writesBack (h : m.translate config = .ok t) {values : Array α}
    (hsize : values.size = t.program.columns.size) :
    m.WritesBack t values slots (t.writeBack (assignmentOf values) m.vars slots) where
  own i v hi := by
    obtain ⟨himage, c, hc, -⟩ := get?_of_translate h hi
    have hlt : i < values.size := hsize ▸ (Array.getElem?_eq_some_iff.1 hc).1
    have hv : v.toVarKey ∈ keysOf m.vars := List.mem_map_of_mem (List.mem_of_getElem? hi)
    refine ⟨himage, values[i], Array.getElem?_eq_getElem hlt, ?_⟩
    rw [Translation.get?_writeBack_of_mem hv himage, Var.value_imageAt]
    have hassigned : assignmentOf values i = values[i] := by simp [assignmentOf, hlt]
    rw [hassigned]
  others k hk := Translation.get?_writeBack_of_not_mem hk

/-! ## Solving -/

theorem prepare_eq_ok : m.prepare config = .ok t ↔
    config.check = .ok () ∧ m.problems = [] ∧ m.translate config = .ok t := by
  unfold prepare
  cases config.check with
  | error e => simp [Except.mapError, bind, Except.bind]
  | ok u =>
    by_cases hproblems : m.problems = []
    · cases m.translate config <;> simp [hproblems, Except.mapError, bind, Except.bind]
    · simp [hproblems, Except.mapError, bind, Except.bind, throw, throwThe, MonadExceptOf.throw]

/-- The engine, which notes the programs that it is given. -/
def recorded (engine : Ilp → Except SolveError (Outcome α)) (p : Ilp) :
    StateM (List Ilp) (Except SolveError (Outcome α)) := do
  modify (· ++ [p])
  return engine p

/-- The engine is run on the program, once, if there is one. -/
theorem run_solveModel_recorded (engine : Ilp → Except SolveError (Outcome α)) :
    (solveModel config m solver (recorded engine) slots).run [] = match m.prepare config with
      | .error e => ((.error e, slots), [])
      | .ok t => match engine t.program with
        | .error e => ((.error e, slots), [t.program])
        | .ok outcome => (t.conclude solver m.vars outcome slots, [t.program]) := by
  unfold solveModel
  cases m.prepare config with
  | error e => rfl
  | ok t =>
    show (match engine t.program with
      | .error e => (pure (.error e, slots) : StateM (List Ilp) (Except SolveError Report × Slots))
      | .ok outcome => pure (t.conclude solver m.vars outcome slots)).run [t.program] = _
    dsimp only
    cases engine t.program <;> rfl

/-- What becomes of an outcome: without a solution, or without the values of one, nothing is
written. -/
theorem conclude_cases (t : Translation) (vars : List Var) (outcome : Outcome α) :
    (∃ e, t.conclude solver vars outcome slots = (.error e, slots)) ∨
    (∃ report, t.conclude solver vars outcome slots = (.ok report, slots) ∧
      report.status.hasSolution = false) ∨
    ∃ report values, t.conclude solver vars outcome slots =
        (.ok report, t.writeBack (assignmentOf values) vars slots) ∧
      report.status = outcome.status ∧ report.status.hasSolution = true ∧
        outcome.values = some values := by
  unfold Translation.conclude
  dsimp only
  split
  · rename_i hstatus
    cases outcome.values with
    | none => exact .inl ⟨_, rfl⟩
    | some values => exact .inr (.inr ⟨_, values, rfl, rfl, hstatus, rfl⟩)
  · rename_i hstatus
    exact .inr (.inl ⟨_, rfl, Bool.eq_false_iff.2 hstatus⟩)

/-- What a solve call does to the slots of variables, and when it runs the engine: if at all, once,
on the translation of the model, after the configuration and the model have passed their checks. An
error at any stage and an outcome without a solution leave all slots as they were. -/
theorem solve_atomic (config : Config) (m : Model) (solver : String) (slots : Slots)
    (engine : Ilp → Except SolveError (Outcome α))
    (hvalues : ∀ p outcome values, engine p = .ok outcome → outcome.values = some values →
      values.size = p.columns.size) :
    let run := (solveModel config m solver (recorded engine) slots).run []
    (run.2 = [] ∨ ∃ t, config.check = .ok () ∧ m.problems = [] ∧ m.translate config = .ok t ∧
      run.2 = [t.program]) ∧
    (∀ e, run.1.1 = .error e → run.1.2 = slots) ∧
    ∀ report, run.1.1 = .ok report →
      (report.status.hasSolution = false → run.1.2 = slots) ∧
      (report.status.hasSolution = true → ∃ t outcome values, run.2 = [t.program] ∧
        m.translate config = .ok t ∧ engine t.program = .ok outcome ∧
        outcome.status = report.status ∧ outcome.values = some values ∧
        m.WritesBack t values slots run.1.2) := by
  intro run
  have hrun : run = _ := run_solveModel_recorded engine
  clear_value run
  cases hprepare : m.prepare config with
  | error e =>
    rw [hprepare] at hrun
    subst hrun
    exact ⟨.inl rfl, fun _ _ => rfl, nofun⟩
  | ok t =>
    obtain ⟨hcheck, hproblems, htranslate⟩ := prepare_eq_ok.1 hprepare
    rw [hprepare] at hrun
    dsimp only at hrun
    cases hengine : engine t.program with
    | error e =>
      rw [hengine] at hrun
      subst hrun
      exact ⟨.inr ⟨t, hcheck, hproblems, htranslate, rfl⟩, fun _ _ => rfl, nofun⟩
    | ok outcome =>
      rw [hengine] at hrun
      dsimp only at hrun
      subst hrun
      refine ⟨.inr ⟨t, hcheck, hproblems, htranslate, rfl⟩, ?_⟩
      -- the values are missing, there is no solution, or the values are written back
      rcases conclude_cases t m.vars outcome with ⟨e, h⟩ | ⟨report, h, hstatus⟩ |
        ⟨report, values, h, hstatus, hsolved, hvalue⟩
      · rw [h]
        exact ⟨fun _ _ => rfl, nofun⟩
      · rw [h]
        refine ⟨nofun, fun report' heq => ⟨fun _ => rfl, fun hsolved => ?_⟩⟩
        cases heq
        rw [hstatus] at hsolved
        cases hsolved
      · rw [h]
        refine ⟨nofun, fun report' heq => ⟨fun hunsolved => ?_, fun _ => ?_⟩⟩
        · cases heq
          rw [hsolved] at hunsolved
          cases hunsolved
        · cases heq
          exact ⟨t, outcome, values, rfl, htranslate, hengine, hstatus.symm, hvalue,
            writesBack htranslate (hvalues _ _ _ hengine hvalue)⟩

/-- A cycle through two nodes whose variables share a name, in a model with a constraint that brings
a variable of its own. The variables of the decompositions and one outside the model keep their
slots. -/
theorem solve_atomic_of_cycle :
    let x : Var := ⟨⟨.declared 0, .int 0 1⟩, "node"⟩
    let y : Var := ⟨⟨.declared 1, .int 0 1⟩, "node"⟩
    let z : Var := ⟨⟨.declared 2, .int 2 4⟩, "own"⟩
    let w : Var := ⟨⟨.declared 3, .bool⟩, "outside"⟩
    let bound : Expr := .global (.defined "bound" [.var x] [.compare .lt (.var x) (.var z)] [z])
    let m : Model := { constraints := [.global (.plain .circuit [.var x, .var y]), bound] }
    let slots : Slots := ⟨[(z.toVarKey, 7), (w.toVarKey, 9), (x.toVarKey, 0)]⟩
    let engine : Ilp → Except SolveError (Outcome Int) := fun p =>
      .ok ⟨.feasible, some (p.columns.map Column.upper), 0⟩
    let run := (solveModel {} m "upper" (recorded engine) slots).run []
    (∃ t, ∃ values : Array Int, run.2 = [t.program] ∧ m.WritesBack t values slots run.1.2) ∧
      [x, y, z, w, orderVar 2 2 0, orderVar 2 2 1].map (fun v => run.1.2.get? v.toVarKey) =
        [some 1, some 1, some 7, some 9, none, none] := by
  intro x y z w bound m slots engine run
  have hvalues : ∀ p outcome values, engine p = .ok outcome → outcome.values = some values →
      values.size = p.columns.size := fun p outcome values ho hv => by
    cases ho
    cases hv
    exact Array.size_map
  have hslots : [x, y, z, w, orderVar 2 2 0, orderVar 2 2 1].map
      (fun v => run.1.2.get? v.toVarKey) = [some 1, some 1, some 7, some 9, none, none] := by
    decide +kernel
  have hstatus : (match run.1.1 with
      | .ok report => report.status.hasSolution
      | .error _ => false) = true := by decide +kernel
  obtain ⟨-, -, hreport⟩ := solve_atomic {} m "upper" slots engine hvalues
  have hrun : run = (solveModel {} m "upper" (recorded engine) slots).run [] := rfl
  rw [← hrun] at hreport
  clear_value run
  refine ⟨?_, hslots⟩
  cases hresult : run.1.1 with
  | error e =>
    rw [hresult] at hstatus
    cases hstatus
  | ok report =>
    rw [hresult] at hstatus
    obtain ⟨t, outcome, values, hrun, -, -, -, -, hwrites⟩ := (hreport report hresult).2 hstatus
    exact ⟨t, values, hrun, hwrites⟩

end Model

end Linearization
