import Linearization.Proofs.Expr.Parts
import Linearization.Proofs.Translation.Safety

/-!
# What validation leaves to the translation

The checks of a model see its nodes and the variables that occur in it. A translation also reaches
the nodes inside of decompositions and the variables that these introduce. If a model passes its
checks, that is the only place where the translation can still meet a shape that it refuses, a
cardinality constraint with more values than counts, or a variable without a value to take
(`Model.translation_of_valid`). It does meet all three there (`Model.decompositions_unchecked`).
-/

namespace Linearization

open Linearization.Valuation (keysOf)

variable {config : Config} {m : Model} {t : Draft} {e n : Expr} {g : Global} {d : Decomposition}
  {k : VarKey} {v : Var}

namespace Model

/-- The node stands in a decomposition that the model contains. -/
def HasInner (m : Model) (n : Expr) : Prop := ∃ e ∈ m.roots, e.HasInner n

/-- A decomposition that the model contains introduces the variable. -/
def Introduces (m : Model) (k : VarKey) : Prop := ∃ e ∈ m.roots, e.Introduces k

/-- If the node has a problem, it stands in a decomposition. -/
def Excuses (m : Model) (n : Expr) : Prop := n.problem?.isSome → m.HasInner n

/-- The variable has a value to take, or a decomposition introduces it. -/
def Sizes (m : Model) (k : VarKey) : Prop := k.domain.lower ≤ k.domain.upper ∨ m.Introduces k

theorem excuses_of_problem (h : n.problem? = none) : m.Excuses n := fun hsome => by
  rw [h] at hsome
  cases hsome

/-- Problems of nodes are found by the checks. -/
theorem allParts_of_valid (hm : m.problems = []) (he : e ∈ m.roots) : e.AllParts m.Excuses := by
  intro n hn
  rcases hn.mem_nodes_or with hnode | hinner
  · refine excuses_of_problem (Option.eq_none_iff_forall_ne_some.2 fun p hp => ?_)
    have hmem : p ∈ m.problems := by
      refine List.mem_append_right _ (List.mem_filterMap.2 ⟨n, ?_, hp⟩)
      exact Expr.mem_nodesOfAll.2 ⟨e, he, hnode⟩
    rw [hm] at hmem
    cases hmem
  · exact fun _ => ⟨e, he, hinner⟩

theorem sizes_of_problem (h : v.problem? = none) : m.Sizes v.toVarKey := by
  refine .inl ?_
  unfold Var.problem? at h
  cases hd : v.domain with
  | bool => decide
  | int lower upper =>
    rw [hd] at h
    dsimp only at h
    split at h
    · cases h
    · rename_i hle
      exact Int.not_lt.1 hle

theorem sizes_of_valid (hm : m.problems = []) (hk : k ∈ keysOf m.vars) : m.Sizes k := by
  obtain ⟨v, hv, rfl⟩ := List.mem_map.1 hk
  refine sizes_of_problem (Option.eq_none_iff_forall_ne_some.2 fun p hp => ?_)
  have hmem : p ∈ m.problems := List.mem_append_left _ (List.mem_filterMap.2 ⟨v, hv, hp⟩)
  rw [hm] at hmem
  cases hmem

theorem allVars_of_valid (hm : m.problems = []) (he : e ∈ m.roots) :
    e.AllVars fun v => m.Sizes v.toVarKey := by
  have haccounts : e.Accounts m.Sizes [] := {
    occurrences := fun v hv => sizes_of_valid hm
      (mem_keysOf_firstOfEach (mem_occurrencesInAll.2 ⟨e, he, hv⟩))
    hidden := List.forall_mem_nil _
    introduced := fun k hk => .inr ⟨e, he, hk⟩ }
  exact haccounts.allVars

end Model

/-- Problems of shapes and of domains only come from decompositions. -/
def Contract.validated (m : Model) : Contract where
  Keeps t := (∀ v, t.layout.Has v → m.Sizes v.toVarKey) ∧
    ∀ g ∈ t.decomposed, m.Excuses (.global g)
  Admits _ e := e.AllVars (fun v => m.Sizes v.toVarKey) ∧ e.AllParts m.Excuses
  guarded := False
  keeps_of h _ hlayout hlog := by
    rw [hlayout, hlog]
    exact h
  admits_mono h _ := h
  admits_child h hd := ⟨h.1.child hd, h.2.child hd⟩
  admits_all h := ⟨Expr.allVars_all fun e he => (h e he).1,
    .all (fun _ h _ => Model.excuses_of_problem h) fun e he => (h e he).2⟩
  decompose {t g d} _ hkeeps hg hd := by
    obtain ⟨hvars, hparts⟩ := hg
    have hnew : ∀ v ∈ d.newVars, m.Sizes v.toVarKey := fun v hv => by
      rcases mem_newVars_of_decompose hd hv with hv | ⟨size, step, hstep, rfl⟩
      · cases hvars with
        | global _ _ hown => exact hown v hv
      · refine .inl ?_
        show (0 : Int) ≤ size - 1
        omega
    have hmembers : ∀ c ∈ d.constraints, c.AllVars fun v => m.Sizes v.toVarKey :=
      hvars.decompose hd (fun _ h => h) hnew
    have hlog : ∀ g' ∈ g :: (t.withVars (d.newVars ++ varsOf d.constraints)).decomposed,
        m.Excuses (.global g') := by
      rw [Draft.decomposed_withVars]
      exact List.forall_mem_cons.2 ⟨hparts _ (.refl _), hkeeps.2⟩
    refine ⟨⟨fun v hv => ?_, hlog⟩, fun c hc =>
      ⟨hmembers c hc, hparts.decompose (fun _ h _ => Model.excuses_of_problem h) hd c hc⟩⟩
    rcases Draft.has_withVars.1 hv with hv | hv
    · obtain ⟨w, hw, heq⟩ := List.mem_map.1 hv
      rw [← heq]
      rcases List.mem_append.1 hw with hw | hw
      · exact hnew w hw
      · obtain ⟨c, hc, hw⟩ := mem_occurrencesInAll.1 (Translate.mem_varsOf hw)
        exact (hmembers c hc).of_mem_occurrences hw
    · exact hkeeps.1 v hv

/-- A cardinality constraint with more values than counts, or with fewer. -/
def Global.isUneven : Global → Bool
  | cardinality _ values counts => values.length != counts.length
  | _ => false

theorem Global.problem?_of_isUneven (h : g.isUneven = true) : (Expr.global g).problem?.isSome := by
  cases g with
  | cardinality args values counts => simpa [isUneven, Expr.problem?] using h
  | _ => cases h

/-- If a model passes its checks, then whatever the outcome of the translation:

1. A failure for the shape of an expression is that of one inside of a decomposition.
2. A cardinality constraint that was decomposed, although it has not as many values as counts, stands
  inside of a decomposition.
3. The column of a registered variable has a value to take, or a decomposition introduces the
  variable. -/
theorem Model.translation_of_valid (config : Config) (hm : m.problems = []) :
    (∀ e reason, m.translate config = .error (.untranslatable e reason) → reason.IsShape →
      e.problem?.isSome ∧ m.HasInner e) ∧
    (let t := stateAfter (Translate.model config m) (.start config.maxDomainEnumeration)
    (∀ g ∈ t.decomposed, g.isUneven = true → m.HasInner (.global g)) ∧
    ∀ v image, t.layout.get? v = some image → ∃ c, t.program.columns[image.column]? = some c ∧
      (c.lower ≤ c.upper ∨ m.Introduces v.toVarKey)) := by
  have hkeeps : (Contract.validated m).Keeps (Translate.registered config.maxDomainEnumeration m) :=
    ⟨fun v hv => Model.sizes_of_valid hm (Translate.has_registered.1 hv), by
      rw [Translate.registered, Draft.decomposed_withVars]
      exact List.forall_mem_nil _⟩
  have hfinishes : Translate.Finishes (Contract.validated m) (Translate.model config m)
      (.start config.maxDomainEnumeration) :=
    Translate.finishes_model hkeeps fun e he =>
      ⟨Model.allVars_of_valid hm he, Model.allParts_of_valid hm he⟩
  obtain ⟨hsized, hlog⟩ := hfinishes.holds.keeps
  refine ⟨fun e reason h hshape => ?_,
    fun g hg huneven => hlog g hg (Global.problem?_of_isUneven huneven), fun v image hv => ?_⟩
  · obtain ⟨t, hrun⟩ := Model.translate_eq_error.1 h
    obtain ⟨hproblem, t', -, hparts⟩ := (hfinishes.explains _ t hrun).shape e reason rfl hshape
    exact ⟨hproblem, hparts e (.refl e) hproblem⟩
  · obtain ⟨-, c, hc, hlower, hupper⟩ := hfinishes.holds.sound.images v image hv
    refine ⟨c, hc, ?_⟩
    rw [hlower, hupper]
    exact hsized v (Option.isSome_iff_exists.2 ⟨image, hv⟩)

/-- A cardinality constraint with a value too many and a variable without a value to take, both in a
decomposition two levels deep. -/
theorem Model.translation_of_valid_of_nested :
    let x : Var := ⟨⟨.declared 0, .int 0 3⟩, "x"⟩
    let y : Var := ⟨⟨.declared 1, .int 1 0⟩, "y"⟩
    let counted : Global := .cardinality [.var x, .var y] [1, 2] [.const 1]
    let inner : Expr := .global (.defined "inner" [.var x] [.global counted] [y])
    let m : Model := { constraints := [.global (.defined "outer" [.var x] [inner] [])] }
    m.problems = [] ∧ (∃ g : Global, g.isUneven = true ∧ m.HasInner (.global g)) ∧
      m.Introduces y.toVarKey := by
  intro x y counted inner m
  have hm : m.problems = [] := rfl
  have hlog : (stateAfter (Translate.model {} m)
      (.start ({} : Config).maxDomainEnumeration)).decomposed.any Global.isUneven := by
    decide +kernel
  have himage : (stateAfter (Translate.model {} m)
      (.start ({} : Config).maxDomainEnumeration)).layout.get? y = some (.int 1) := by
    decide +kernel
  have hcolumn : (stateAfter (Translate.model {} m)
      (.start ({} : Config).maxDomainEnumeration)).program.columns[1]? =
        some ⟨"y", 1, 0, false⟩ := by decide +kernel
  obtain ⟨-, huneven, hdomain⟩ := translation_of_valid {} hm
  -- From here on only these facts about the draft matter; it is not to be computed again.
  generalize stateAfter (Translate.model {} m) (.start ({} : Config).maxDomainEnumeration) = t
    at hlog himage hcolumn huneven hdomain
  obtain ⟨g, hg, hgu⟩ := List.any_eq_true.1 hlog
  obtain ⟨c, hc, hsized⟩ := hdomain y (.int 1) himage
  cases hcolumn.symm.trans hc
  exact ⟨hm, ⟨g, hgu, huneven g hg hgu⟩, hsized.resolve_left (by decide)⟩

/-- Models that pass their checks: the translation of the first fails for the arity of an operator,
that of the second decomposes a cardinality constraint with a value too many, and that of the third
registers a variable without a value to take. -/
theorem Model.decompositions_unchecked :
    let x : Var := ⟨⟨.declared 0, .int 0 3⟩, "x"⟩
    let y : Var := ⟨⟨.declared 1, .int 1 0⟩, "y"⟩
    let difference : Expr := .op .sub [.var x]
    let counted : Global := .cardinality [.var x] [1, 2] [.const 1]
    let within (members : List Expr) (newVars : List Var) : Model :=
      { constraints := [.global (.defined "o" [.var x] members newVars)] }
    let arity := within [.compare .eq difference (.const 0)] []
    let uneven := within [.global counted] []
    let empty := within [] [y]
    let draft (m : Model) : Draft := stateAfter (Translate.model {} m) (.start 4096)
    (arity.problems = [] ∧
      arity.translate {} = .error (.untranslatable difference (.arity .sub 2 1))) ∧
    (uneven.problems = [] ∧ (draft uneven).decomposed.any Global.isUneven = true) ∧
    (empty.problems = [] ∧ (draft empty).layout.get? y = some (.int 1) ∧
      (draft empty).program.columns[1]? = some ⟨"y", 1, 0, false⟩) :=
  ⟨⟨rfl, rfl⟩, ⟨rfl, by decide +kernel⟩, rfl, by decide +kernel, by decide +kernel⟩

end Linearization
