import Linearization.Proofs.Expr.Outcome
import Linearization.Proofs.Translation.Additions

/-!
# An exclusive or inside a value

An exclusive or can be imposed, but it has no value. So lowering fails, in every draft, for an
expression whose value needs that of an exclusive or at any depth (`Expr.NestsParity`), and imposing
fails for a constraint that has one anywhere but in an imposed place (`Expr.MisplacesParity`).
Models with such a constraint or objective are refused (`Translate.nested_parity_rejected`).

Everything that a value needs is lowered before a shortcut can be taken, for instance for a constant
index or for a connective whose literals decide it. This is read off a single call of the recursion;
that the failure comes up from any depth is an induction on the calls.
-/

namespace Linearization

namespace Expr

/-- The value of the expression needs the value of an exclusive or. The members of a defined
constraint are values as well when the constraint is one. -/
inductive NestsParity : Expr → Prop where
  | parity (args : List Expr) : NestsParity (op .xor args)
  | child {e d : Expr} (he : ∀ g, e ≠ global g) (hd : d ∈ e.children) (h : NestsParity d) :
    NestsParity e
  | extremum {kind : GlobalKind} {args : List Expr} {d : Expr} (hkind : kind = .min ∨ kind = .max)
    (hd : d ∈ args) (h : NestsParity d) : NestsParity (global (.plain kind args))
  | count {args : List Expr} {value : Expr}
    (h : NestsParity (sum (args.map fun a => a.equals value))) :
    NestsParity (global (.count args value))
  | member {name : String} {args constraints : List Expr} {newVars : List Var} {c : Expr}
    (hc : c ∈ constraints) (h : NestsParity c) :
    NestsParity (global (.defined name args constraints newVars))

/-- To impose the expression, the value of an exclusive or is needed. Imposing an exclusive or
itself does not need its value, but those of its arguments. -/
inductive MisplacesParity : Expr → Prop where
  | direct {e d : Expr} (he : e.IsDirect) (hd : d ∈ e.children) (h : d.NestsParity) :
    MisplacesParity e
  | compare {c : Comparison} {lhs rhs : Expr} (h : lhs.NestsParity ∨ rhs.NestsParity) :
    MisplacesParity (compare c lhs rhs)
  | list {items : List Expr} {d : Expr} (hd : d ∈ items) (h : MisplacesParity d) :
    MisplacesParity (list items)
  | and {args : List Expr} {d : Expr} (hd : d ∈ args) (h : MisplacesParity d) :
    MisplacesParity (op .and args)
  | antecedent {a b : Expr} (h : a.NestsParity) : MisplacesParity (op .implies [a, b])
  | consequent {a b : Expr} (h : MisplacesParity b) : MisplacesParity (op .implies [a, b])
  | distinct {args : List Expr} {d : Expr} (hd : d ∈ args) (h : d.NestsParity) :
    MisplacesParity (global (.plain .allDifferent args))
  | function {g : Global} (hg : g.isBoolean = false) (h : (global g).NestsParity) :
    MisplacesParity (global g)
  | member {name : String} {args constraints : List Expr} {newVars : List Var} {c : Expr}
    (hc : c ∈ constraints) (h : MisplacesParity c) :
    MisplacesParity (global (.defined name args constraints newVars))

variable {e c : Expr} {cs : List Expr}

/-- What is neither an exclusive or nor a global has the exclusive or in a subexpression. -/
theorem NestsParity.exists_child (h : e.NestsParity) (he : ∀ g, e ≠ global g)
    (hxor : ∀ args, e ≠ op .xor args) : ∃ d ∈ e.children, d.NestsParity := by
  cases h with
  | parity args => exact absurd rfl (hxor args)
  | child _ hd h => exact ⟨_, hd, h⟩
  | extremum _ _ _ => exact absurd rfl (he _)
  | count _ => exact absurd rfl (he _)
  | member _ _ => exact absurd rfl (he _)

/-- A conjunction needs the values of all its members, also of those that it takes apart. -/
theorem nestsParity_all (hc : c ∈ cs) (h : c.NestsParity) : (all cs).NestsParity := by
  have hoperand : ∃ d ∈ c.operands .and, d.NestsParity := by
    by_cases hand : ∃ args, c = op .and args
    · obtain ⟨args, rfl⟩ := hand
      simpa [operands, children] using h.exists_child (by simp) (by simp)
    · refine ⟨c, ?_, h⟩
      cases c with
      | op o args =>
        have ho : o ≠ .and := fun ho => hand ⟨args, by rw [ho]⟩
        simp [operands, ho]
      | _ => simp [operands]
  obtain ⟨d, hd, h⟩ := hoperand
  exact .child (by simp [all, nary]) (List.mem_flatMap.2 ⟨c, hc, hd⟩) h

/-- A variable or its complement is imposed as it is. -/
theorem not_misplacesParity_of_asBoolLiteral (hb : e.asBoolLiteral.isSome) :
    ¬ e.MisplacesParity := by
  intro h
  cases h with
  | direct _ hd _ =>
    cases e with
    | var v => cases hd
    | complement v => cases hd
    | _ => cases hb
  | _ => cases hb

end Expr

namespace Translate

/-- The step fails in every draft. -/
def Rejects {α : Type} (m : Translate α) : Prop := ∀ t, ∃ error t', m t = .error error t'

variable {α β : Type} {m : Translate α} {f : α → Translate β} {limit : Nat} {self : Deeper}
  {guards : List Literal} {e a b : Expr} {es : List Expr}

namespace Rejects

theorem throw (error : TranslationError) : Rejects (MonadExcept.throw error : Translate α) :=
  fun t => ⟨error, t, rfl⟩

theorem bind (h : Rejects m) (f : α → Translate β) : Rejects (m >>= f) := by
  intro t
  obtain ⟨error, t', herror⟩ := h t
  exact ⟨error, t', bind_of_error herror⟩

/-- Whether the first part fails or not, the step does. -/
theorem after (m : Translate α) (h : ∀ a, Rejects (f a)) : Rejects (m >>= f) := by
  intro t
  cases hm : m t with
  | ok a t' =>
    rw [bind_of_ok hm]
    exact h a t'
  | error error t' => exact ⟨error, t', bind_of_error hm⟩

theorem map (h : Rejects m) (f : α → β) : Rejects (f <$> m) := by
  rw [map_eq_pure_bind]
  exact h.bind _

theorem mapM {f : Expr → Translate β} (he : e ∈ es) (h : Rejects (f e)) :
    Rejects (es.mapM f) := by
  induction he with
  | head es =>
    rw [List.mapM_cons]
    exact h.bind _
  | tail d _ ih =>
    rw [List.mapM_cons]
    exact after _ fun _ => ih.bind _

theorem forM {f : Expr → Translate PUnit} (he : e ∈ es) (h : Rejects (f e)) :
    Rejects (es.forM f) := by
  induction he with
  | head es =>
    rw [List.forM_eq_forM, List.forM_cons]
    exact h.bind _
  | tail d _ ih =>
    rw [List.forM_eq_forM] at ih ⊢
    rw [List.forM_cons]
    exact after _ fun _ => ih

theorem nested (h : Rejects m) : Rejects (Translate.nested m) := by
  intro t
  obtain ⟨error, t', herror⟩ :=
    h { t with depth := t.depth + 1, deepest := max t.deepest (t.depth + 1) }
  unfold Translate.nested
  dsimp only
  rw [herror]
  exact ⟨error, _, rfl⟩

theorem decomposed {name : String} {args constraints : List Expr} {newVars : List Var}
    {f : List Expr → Translate α} (h : Rejects (f constraints)) :
    Rejects (Translate.decomposed limit (.defined name args constraints newVars) f) := by
  refine after _ fun t => ?_
  split
  · exact throw _
  · unfold members
    rw [bind_assoc]
    refine after _ fun t => ?_
    simp only [Global.decompose, bind_assoc, pure_bind]
    exact after _ fun _ => after _ fun _ => h.nested

end Rejects

/-! ## One call -/

/-- Lowering fails for what needs the value of an exclusive or, and so does imposing. -/
structure RejectsParity (calls : Deeper) : Prop where
  lower : ∀ e : Expr, e.NestsParity → Rejects (calls.lower e)
  impose : ∀ (e : Expr) guards, e.MisplacesParity → Rejects (calls.impose e guards)

section Calls

variable (hself : RejectsParity self)

include hself

theorem rejects_formBy (h : e.NestsParity) : Rejects (formBy self.lower e) :=
  (hself.lower e h).bind _

theorem rejects_literalBy (h : e.NestsParity) : Rejects (literalBy self.lower e) :=
  (hself.lower e h).bind _

theorem rejects_forms (h : ∃ e ∈ es, e.NestsParity) : Rejects (es.mapM (formBy self.lower)) := by
  obtain ⟨e, he, h⟩ := h
  exact .mapM he (rejects_formBy hself h)

theorem rejects_literals (h : ∃ e ∈ es, e.NestsParity) :
    Rejects (es.mapM (literalBy self.lower)) := by
  obtain ⟨e, he, h⟩ := h
  exact .mapM he (rejects_literalBy hself h)

/-- Of an item the index is lowered first, and then the whole array, whatever the index is. -/
theorem rejects_item {array : List Expr} {index : Expr}
    (h : (Expr.element array index).NestsParity) (f : Affine → List Affine → Translate α) :
    Rejects (do
      let i ← formBy self.lower index
      let items ← array.mapM (formBy self.lower)
      f i items) := by
  obtain ⟨d, hd, h⟩ := h.exists_child (by simp) (by simp)
  rcases List.mem_append.1 hd with hd | hd
  · exact .after _ fun _ => (rejects_forms hself ⟨d, hd, h⟩).bind _
  · rw [List.mem_singleton.1 hd] at h
    exact (rejects_formBy hself h).bind _

theorem rejects_callLower (he : e.NestsParity) : Rejects (Deeper.callLower limit self e) := by
  have hleaf : (∀ g, e ≠ .global g) → (∀ args, e ≠ .op .xor args) → e.children ≠ [] := by
    intro hglobal hxor hchildren
    obtain ⟨d, hd, -⟩ := he.exists_child hglobal hxor
    rw [hchildren] at hd
    cases hd
  cases e with
  | const c => exact absurd rfl (hleaf (by simp) (by simp))
  | var v => exact absurd rfl (hleaf (by simp) (by simp))
  | complement v => exact absurd rfl (hleaf (by simp) (by simp))
  | list items =>
    obtain ⟨d, hd, h⟩ := he.exists_child (by simp) (by simp)
    exact (Rejects.mapM hd (hself.lower d h)).bind _
  | op o args =>
    refine .after _ fun _ => ?_
    by_cases hxor : o = .xor
    · subst hxor
      exact .throw _
    · have hargs := he.exists_child (by simp) (by simp [hxor])
      have hliterals := rejects_literals hself hargs
      have hforms := rejects_forms hself hargs
      cases o with
      | xor => exact absurd rfl hxor
      | and => exact hliterals.bind _
      | or => exact hliterals.bind _
      | implies => exact hliterals.bind _
      | _ => exact hforms.bind _
  | compare c lhs rhs =>
    have hside := he.exists_child (by simp) (by simp)
    simp only [Expr.children, List.exists_mem_cons_iff, List.not_mem_nil, false_and, exists_false,
      or_false] at hside
    rcases hside with h | h
    · exact (rejects_formBy hself h).bind _
    · exact .after _ fun _ => (rejects_formBy hself h).bind _
  | element array index => exact rejects_item hself he _
  | global g =>
    cases he with
    | child hglobal _ _ => exact absurd rfl (hglobal g)
    | extremum hkind hd h =>
      have hforms := rejects_forms hself ⟨_, hd, h⟩
      rcases hkind with rfl | rfl
      · exact hforms.bind _
      · exact hforms.bind _
    | count h => exact hself.lower _ h
    | member hc h =>
      exact (Rejects.decomposed (rejects_literalBy hself (Expr.nestsParity_all hc h))).map _

theorem rejects_callImposeLiteral (h : e.NestsParity) :
    Rejects (Deeper.callImposeLiteral self e guards) :=
  (rejects_literalBy hself h).bind _

theorem rejects_callImposeComparison {c : Comparison} {lhs rhs : Expr}
    (h : lhs.NestsParity ∨ rhs.NestsParity) :
    Rejects (Deeper.callImposeComparison self c lhs rhs guards) := by
  unfold Deeper.callImposeComparison
  split
  · rename_i array index other heq
    -- The item is not lowered as a value, but its index and the array are.
    have hitem : (Expr.element array index).NestsParity ∨ other.NestsParity := by
      rcases itemEquality?_eq_some heq with ⟨rfl, rfl⟩ | ⟨rfl, rfl⟩
      · exact h
      · exact h.symm
    rcases hitem with h | h
    · exact rejects_item hself h _
    · exact .after _ fun _ => .after _ fun _ => (rejects_formBy hself h).bind _
  · rcases h with h | h
    · exact (hself.lower lhs h).bind _
    · exact .after _ fun _ => (hself.lower rhs h).bind _

/-- The antecedent becomes a literal in either case; the consequent is no literal. -/
theorem rejects_callImposeImplication (h : a.NestsParity ∨ b.MisplacesParity) :
    Rejects (Deeper.callImpose limit self (.op .implies [a, b]) guards) := by
  show Rejects (if guards.isEmpty ∧ a.asBoolLiteral.isSome ∧ b.asBoolLiteral.isSome then _ else _)
  split
  · rename_i hliterals
    rcases h with h | h
    · exact (rejects_literalBy hself h).bind _
    · exact absurd h (Expr.not_misplacesParity_of_asBoolLiteral hliterals.2.2)
  · rcases h with h | h
    · exact (rejects_literalBy hself h).bind _
    · exact .after _ fun _ => hself.impose b _ h

/-- Whatever is imposed as a literal needs the values of its subexpressions, and so do the clause
of a disjunction and the row of an exclusive or. -/
theorem rejects_callImpose_of_isDirect {d : Expr} (he : e.IsDirect) (hd : d ∈ e.children)
    (h : d.NestsParity) : Rejects (Deeper.callImpose limit self e guards) := by
  cases e with
  | const c => cases hd
  | var v => cases hd
  | complement v => cases hd
  | list items => cases he
  | compare c lhs rhs => cases he
  | global g => cases he
  | element array index => exact rejects_callImposeLiteral hself (.child (by simp) hd h)
  | op o args =>
    have hliteral : Rejects (Deeper.callImposeLiteral self (.op o args) guards) :=
      rejects_callImposeLiteral hself (.child (by simp) hd h)
    cases o with
    | and => cases he
    | or => exact (rejects_literals hself ⟨d, hd, h⟩).bind _
    | xor => exact (rejects_literals hself ⟨d, hd, h⟩).bind _
    | implies =>
      rcases args with _ | ⟨a, _ | ⟨b, _ | ⟨c, rest⟩⟩⟩
      · exact hliteral
      · exact hliteral
      · cases he
      · exact hliteral
    | _ => exact hliteral

theorem rejects_callImpose (he : e.MisplacesParity) (guards : List Literal) :
    Rejects (Deeper.callImpose limit self e guards) := by
  cases he with
  | direct he hd h => exact rejects_callImpose_of_isDirect hself he hd h
  | compare h => exact rejects_callImposeComparison hself h
  | list hd h => exact .forM hd (hself.impose _ guards h)
  | and hd h => exact .forM hd (hself.impose _ guards h)
  | antecedent h => exact rejects_callImposeImplication hself (.inl h)
  | consequent h => exact rejects_callImposeImplication hself (.inr h)
  | distinct hd h => exact (rejects_forms hself ⟨_, hd, h⟩).bind _
  | @function g hg h =>
    have hvalue : Rejects (discard (self.lower (.global g))) := (hself.lower _ h).map _
    cases g with
    | plain kind args =>
      cases kind with
      | min => exact hvalue
      | max => exact hvalue
      | _ => cases hg
    | count args value => exact hvalue
    | _ => cases hg
  | member hc h => exact .decomposed (.forM hc (hself.impose _ guards h))

end Calls

/-! ## Expressions and models -/

theorem rejectsParity_unrolled (limit calls : Nat) :
    RejectsParity (unrolled limit exhausted calls) := by
  -- what is at the bottom fails anyway
  induction calls with
  | zero => exact ⟨fun _ _ => .throw _, fun _ _ _ => .throw _⟩
  | succ calls ih => exact ⟨fun _ => rejects_callLower ih, fun _ guards he =>
      rejects_callImpose ih he guards⟩

theorem rejects_lowerExpr (config : Config) (he : e.NestsParity) :
    Rejects (lowerExpr config e) := by
  intro t
  obtain ⟨n, hn⟩ := exists_calls_lower config t e
  rw [← hn n (Nat.le_refl n)]
  exact (rejectsParity_unrolled config.maxDecompositionDepth n).lower e he t

theorem rejects_imposeExpr (config : Config) (he : e.MisplacesParity) (guards : List Literal) :
    Rejects (imposeExpr config e guards) := by
  intro t
  obtain ⟨n, hn⟩ := exists_calls_impose config t e guards
  rw [← hn n (Nat.le_refl n)]
  exact (rejectsParity_unrolled config.maxDecompositionDepth n).impose e guards he t

theorem rejects_model {M : Model} (config : Config) (h : (∃ c ∈ M.constraints, c.MisplacesParity) ∨
    ∃ o ∈ M.objective, o.expr.NestsParity) : Rejects (model config M) := by
  refine .after _ fun _ => ?_
  rcases h with ⟨c, hc, h⟩ | ⟨o, ho, h⟩
  · exact (Rejects.forM hc (rejects_imposeExpr config h [])).bind _
  · refine .after _ fun _ => ?_
    rw [Option.mem_def.1 ho]
    exact (rejects_lowerExpr config h).bind _

/-- In every draft, lowering fails for an expression whose value needs that of an exclusive or at
any depth, and imposing fails under any guards for a constraint that has one anywhere but in an
imposed place. No model with such a constraint or such an objective is translated. -/
theorem nested_parity_rejected (config : Config) :
    (∀ e : Expr, e.NestsParity → ∀ t, ∃ error t', lowerExpr config e t = .error error t') ∧
    (∀ (e : Expr) guards, e.MisplacesParity →
      ∀ t, ∃ error t', imposeExpr config e guards t = .error error t') ∧
    ∀ m : Model, (∃ c ∈ m.constraints, c.MisplacesParity) ∨
      (∃ o ∈ m.objective, o.expr.NestsParity) → ∃ error, m.translate config = .error error := by
  refine ⟨fun e he => rejects_lowerExpr config he,
    fun e guards he => rejects_imposeExpr config he guards, fun m h => ?_⟩
  obtain ⟨error, t', herror⟩ := rejects_model config h (.start config.maxDomainEnumeration)
  refine ⟨error, ?_⟩
  unfold Model.translate
  rw [herror]

/-- The exclusive or is in an item of an array that the constant index does not select. -/
theorem nested_parity_rejected_of_unselected :
    let b : Var := ⟨⟨.declared 0, .bool⟩, "b"⟩
    let parity : Expr := .op .xor [.var b, .const 1]
    let e : Expr := .element [.const 3, .op .sum [.const 2, parity]] (.const 0)
    let m : Model := { constraints := [.compare .le (.var b) e] }
    (∀ t, ∃ error t', lowerExpr {} e t = .error error t') ∧
      ∃ error, m.translate {} = .error error := by
  intro b parity e m
  have hsum : (Expr.op .sum [.const 2, parity]).NestsParity :=
    .child (d := parity) (by simp) (by simp [Expr.children]) (.parity _)
  have he : e.NestsParity := .child (by simp [e]) (by simp [e, Expr.children]) hsum
  have hm : ∃ c ∈ m.constraints, c.MisplacesParity :=
    ⟨_, List.mem_singleton_self _, .compare (.inr he)⟩
  obtain ⟨hlower, -, hmodel⟩ := nested_parity_rejected {}
  exact ⟨hlower e he, hmodel m (.inl hm)⟩

/-- Below the consequent of an implication an exclusive or is imposed. -/
example :
    let b : Var := ⟨⟨.declared 0, .bool⟩, "b"⟩
    let m : Model :=
      { constraints := [.op .implies [.var b, .list [.op .xor [.var b, .const 1]]]] }
    (m.translate {}).toOption.isSome = true := by decide +kernel

end Translate

end Linearization
