import Linearization.Proofs.Expr.Outcome

/-!
# Expressions with one outcome

Only the orders of cycles are open, so an expression that no cycle can be reached from comes to one
value at most (`Yields.unique`), however often it is translated.
-/

namespace Linearization

namespace Expr

/-- No cycle can be reached in the expression, through subexpressions and decompositions. -/
def Steady (e : Expr) : Prop := e.AllParts fun d => ∀ args, d ≠ global (.plain .circuit args)

variable {σ : Valuation} {e d : Expr} {es args : List Expr} {g : Global} {o o' : Outcome}
  {ks : List (Option Int)} {vs ws : List Int}

namespace Steady

theorem child (h : e.Steady) (hd : d ∈ e.children) : d.Steady := AllParts.child h hd

theorem ne_circuit (h : (global g).Steady) (args : List Expr) : g ≠ .plain .circuit args := by
  rintro rfl
  exact h _ (.refl _) args rfl

theorem const (c : Int) : (Expr.const c).Steady :=
  AllParts.leaf (fun _ _ h => h) rfl rfl nofun

theorem var (v : Var) : (Expr.var v).Steady :=
  AllParts.leaf (fun _ _ h => h) rfl rfl nofun

theorem list (h : ∀ e ∈ es, e.Steady) : (Expr.list es).Steady :=
  AllParts.of_children nofun h nofun

theorem compare (c : Comparison) (he : e.Steady) (hd : d.Steady) : (Expr.compare c e d).Steady :=
  AllParts.compare (fun _ _ h => h) c he hd

theorem all_members (h : (global g).Steady) {m : Nat} {c : Decomposition}
    (hd : g.decompose m = some c) : (Expr.all c.constraints).Steady :=
  AllParts.all (fun _ _ h => h) (AllParts.decompose (fun _ _ h => h) h hd)

end Steady

/-- From an expression without cycles everything is determined by the values of the variables. -/
theorem Yields.unique (h : e.Yields σ o) (he : e.Steady) (h' : e.Yields σ o') : o = o' := by
  induction h generalizing o' with
  | const c =>
    cases h'
    rfl
  | var v =>
    cases h'
    rfl
  | complement v =>
    cases h'
    rfl
  | nil =>
    cases h'
    rfl
  | @cons e es _ _ _ _ ihe ihes =>
    cases h' with
    | cons he' hes' =>
      obtain ⟨hhead, htail⟩ := List.forall_mem_cons.1 fun d hd => he.child (d := d) hd
      have hsequence := ihes (.list htail) hes'
      rw [ihe hhead he', Outcome.sequence.inj hsequence]
  | op _ ho ih =>
    cases h' with
    | op hargs' ho' =>
      have hvalues := Outcome.integers_inj (ih (.list fun d hd => he.child hd) hargs')
      rw [hvalues, ho'] at ho
      cases ho
      rfl
  | compare _ _ ihl ihr =>
    cases h' with
    | compare hl' hr' =>
      have hleft := ihl (he.child List.mem_cons_self) hl'
      have hright := ihr (he.child (List.mem_cons_of_mem _ List.mem_cons_self)) hr'
      rw [Outcome.number.inj hleft, Outcome.number.inj hright]
  | element _ _ hk ihi iha =>
    cases h' with
    | element hi' ha' hk' =>
      have hindex := ihi (he.child (List.mem_append_right _ (List.mem_singleton_self _))) hi'
      have harray := iha (.list fun d hd => he.child (List.mem_append_left _ hd)) ha'
      rw [Outcome.number.inj hindex, Outcome.integers_inj harray, hk'] at hk
      cases hk
      rfl
  | extremum hkind _ hk ih =>
    cases h' with
    | extremum _ hargs' hk' =>
      have hsequence := ih (.list fun d hd => he.child hd) hargs'
      rw [Outcome.sequence.inj hsequence, hk'] at hk
      cases hk
      rfl
    | decomposed _ hd _ => rcases hkind with rfl | rfl <;> cases hd
    | circuit _ _ => exact absurd rfl (he.ne_circuit _)
  | @count args value _ _ ih =>
    cases h' with
    | count h' =>
      have hhits : (Expr.list (args.map fun a => a.equals value)).Steady := by
        refine .list fun d hd => ?_
        obtain ⟨a, ha, rfl⟩ := List.mem_map.1 hd
        exact .compare _ (he.child (List.mem_append_left _ ha))
          (he.child (List.mem_append_right _ (List.mem_singleton_self value)))
      rw [Outcome.integers_inj (ih hhits h')]
    | decomposed _ hd _ => cases hd
  | decomposed hcircuit hd _ ih =>
    exact ih (he.all_members hd) ((yields_decomposed_iff hcircuit hd).1 h')
  | circuit _ _ => exact absurd rfl (he.ne_circuit _)

theorem YieldsAll.unique (h : YieldsAll σ es vs) (hes : ∀ e ∈ es, e.Steady)
    (h' : YieldsAll σ es ws) : vs = ws :=
  Outcome.integers_inj (Yields.unique h (.list hes) h')

end Expr

end Linearization
