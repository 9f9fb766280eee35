import Linearization.Proofs.Expr.Induction

/-!
# What the meaning of an expression depends on

An extension of a valuation to introduced variables is the same outside of them and takes values of
their domains (`mem_extensions`). The value and the truth of an expression depend only on the
variables that occur in it and are not introduced by a decomposition in it (`hasFrame`,
`truthHasFrame`).
-/

namespace Linearization

namespace Valuation

variable {σ τ ρ : Valuation} {v : Var} {vs : List Var}

/-- The identities of several variables. -/
abbrev keysOf (vs : List Var) : List VarKey := vs.map Var.toVarKey

theorem mem_range_offset {d : Domain} {n : Int} :
    (∃ i ∈ List.range (d.upper - d.lower + 1).toNat, d.lower + (i : Nat) = n) ↔ d.Admits n := by
  simp only [List.mem_range, Domain.Admits]
  constructor
  · rintro ⟨i, hi, rfl⟩
    omega
  · intro h
    exact ⟨(n - d.lower).toNat, by omega, by omega⟩

/-- The extensions are the valuations with values of the domains that are the same elsewhere. -/
theorem mem_extensions : ρ ∈ σ.extensions vs ↔
    (∀ k, k ∉ keysOf vs → ρ k = σ k) ∧ ∀ v ∈ vs, v.domain.Admits (ρ v.toVarKey) := by
  induction vs generalizing σ with
  | nil =>
    simp only [extensions, List.mem_singleton, List.map_nil, List.not_mem_nil, not_false_eq_true,
      forall_const, false_implies, implies_true, and_true]
    exact ⟨fun h k => by rw [h], fun h => funext h⟩
  | cons v vs ih =>
    simp only [extensions, List.mem_flatMap, ih, List.map_cons, List.mem_cons, not_or,
      forall_eq_or_imp]
    constructor
    · rintro ⟨i, hi, hout, hin⟩
      refine ⟨fun k hk => ?_, ?_, hin⟩
      · rw [hout k hk.2, update, if_neg hk.1]
      · by_cases hv : v.toVarKey ∈ keysOf vs
        · obtain ⟨w, hw, heq⟩ := List.mem_map.1 hv
          have hadmits := hin w hw
          rwa [heq] at hadmits
        · rw [hout _ hv, update, if_pos rfl]
          exact mem_range_offset.1 ⟨i, hi, rfl⟩
    · rintro ⟨hout, hv, hin⟩
      obtain ⟨i, hi, heq⟩ := mem_range_offset.2 hv
      refine ⟨i, hi, fun k hk => ?_, hin⟩
      unfold update
      split
      · rename_i hkv
        rw [hkv, heq]
      · rename_i hkv
        exact hout k ⟨hkv, hk⟩

theorem exists_extension (τ : Valuation) (h : ρ ∈ σ.extensions vs) :
    ∃ ρ' ∈ τ.extensions vs, (∀ k ∈ keysOf vs, ρ' k = ρ k) ∧ ∀ k ∉ keysOf vs, ρ' k = τ k := by
  refine ⟨fun k => if k ∈ keysOf vs then ρ k else τ k, ?_, fun k hk => if_pos hk,
    fun k hk => if_neg hk⟩
  refine mem_extensions.2 ⟨fun k hk => if_neg hk, fun v hv => ?_⟩
  rw [if_pos (List.mem_map_of_mem hv)]
  exact (mem_extensions.1 h).2 v hv

/-- The valuations agree on what the expression depends on, where the hidden variables count too. -/
structure Agree (σ τ : Valuation) (hidden : List VarKey) (e : Expr) : Prop where
  occurrences : ∀ v ∈ e.occurrences hidden, σ v.toVarKey = τ v.toVarKey
  hidden : ∀ k ∈ hidden, σ k = τ k

end Valuation

open Linearization.Valuation

/-! ## First occurrences -/

theorem mem_keysOf_firstOfEach {vs : List Var} {v : Var} (hv : v ∈ vs) :
    v.toVarKey ∈ keysOf (firstOfEach vs) := by
  induction vs with
  | nil => cases hv
  | cons w vs ih =>
    rw [firstOfEach, keysOf, List.map_cons]
    by_cases hkey : v.toVarKey = w.toVarKey
    · rw [hkey]
      exact List.mem_cons_self
    · have hmem := ih ((List.mem_cons.1 hv).resolve_left fun h => hkey (congrArg Var.toVarKey h))
      obtain ⟨u, hu, heq⟩ := List.mem_map.1 hmem
      refine List.mem_cons_of_mem _ (List.mem_map.2 ⟨u, List.mem_filter.2 ⟨hu, ?_⟩, heq⟩)
      rw [heq]
      exact decide_eq_true hkey

theorem nodup_keysOf_firstOfEach (vs : List Var) : (keysOf (firstOfEach vs)).Nodup := by
  induction vs with
  | nil => exact List.nodup_nil
  | cons v vs ih =>
    rw [firstOfEach, keysOf, List.map_cons, List.nodup_cons]
    constructor
    · intro hmem
      obtain ⟨w, hw, heq⟩ := List.mem_map.1 hmem
      exact of_decide_eq_true (List.mem_filter.1 hw).2 heq
    · exact (List.filter_sublist.map Var.toVarKey).nodup ih

variable {σ τ ρ ρ' : Valuation} {hidden : List VarKey} {e d : Expr} {v : Var}

/-! ## Occurrences in parts -/

theorem mem_occurrences_of_child (hd : d ∈ e.children) (hv : v ∈ d.occurrences hidden) :
    v ∈ e.occurrences hidden := by
  have hall : ∀ es : List Expr, d ∈ es → v ∈ occurrencesInAll hidden es :=
    fun es hd => mem_occurrencesInAll.2 ⟨d, hd, hv⟩
  cases e with
  | const c => cases hd
  | var w => cases hd
  | complement w => cases hd
  | list items => exact hall items hd
  | op o args => exact hall args hd
  | compare c lhs rhs =>
    simp only [Expr.children, List.mem_cons, List.not_mem_nil, or_false] at hd
    rw [Expr.occurrences, List.mem_append]
    rcases hd with rfl | rfl
    · exact .inl hv
    · exact .inr hv
  | element array index =>
    rw [Expr.occurrences, List.mem_append]
    rcases List.mem_append.1 hd with hd | hd
    · exact .inl (hall array hd)
    · exact .inr (List.mem_singleton.1 hd ▸ hv)
  | global g =>
    cases g with
    | plain kind args => exact hall args hd
    | count args value =>
      rw [Expr.occurrences, Global.occurrences, List.mem_append]
      rcases List.mem_append.1 hd with hd | hd
      · exact .inl (hall args hd)
      · exact .inr (List.mem_singleton.1 hd ▸ hv)
    | cardinality args values counts =>
      rw [Expr.occurrences, Global.occurrences, List.mem_append]
      exact (List.mem_append.1 hd).imp (hall args) (hall counts)
    | named name args => exact hall args hd
    | defined name args constraints newVars =>
      rw [Expr.occurrences, Global.occurrences, List.mem_append]
      exact .inr (hall args hd)

/-- What occurs in a member of a decomposition and is not introduced by it occurs in the global. -/
theorem mem_occurrences_of_member {g : Global} (hd : d ∈ g.members)
    (hv : v ∈ d.occurrences (hidden ++ keysOf g.newVars)) :
    v ∈ (Expr.global g).occurrences hidden := by
  cases g with
  | defined name args constraints newVars =>
    rw [Expr.occurrences, Global.occurrences, List.mem_append]
    exact .inl (mem_occurrencesInAll.2 ⟨d, hd, hv⟩)
  | _ => cases hd

/-- What occurs among the expressions is not hidden, and occurs wherever it is not. -/
def Unhidden (v : Var) (occurrences : List VarKey → List Var) : Prop :=
  ∀ hidden, v ∈ occurrences hidden →
    v.toVarKey ∉ hidden ∧ ∀ hidden', v.toVarKey ∉ hidden' → v ∈ occurrences hidden'

theorem Unhidden.append {f g : List VarKey → List Var} (hf : Unhidden v f) (hg : Unhidden v g) :
    Unhidden v fun hidden => f hidden ++ g hidden := by
  intro hidden hv
  rcases List.mem_append.1 hv with hv | hv
  · exact ⟨(hf hidden hv).1, fun h' hh' => List.mem_append_left _ ((hf hidden hv).2 h' hh')⟩
  · exact ⟨(hg hidden hv).1, fun h' hh' => List.mem_append_right _ ((hg hidden hv).2 h' hh')⟩

theorem Unhidden.all {es : List Expr} (h : ∀ e ∈ es, Unhidden v e.occurrences) :
    Unhidden v (occurrencesInAll · es) := by
  intro hidden hv
  obtain ⟨e, he, hv⟩ := mem_occurrencesInAll.1 hv
  exact ⟨(h e he hidden hv).1,
    fun h' hh' => mem_occurrencesInAll.2 ⟨e, he, (h e he hidden hv).2 h' hh'⟩⟩

theorem unhidden_var (w : Var) :
    Unhidden v fun hidden => if w.toVarKey ∈ hidden then [] else [w] := by
  intro hidden hv
  dsimp only at hv
  split at hv
  · cases hv
  · rename_i hw
    obtain rfl := List.mem_singleton.1 hv
    refine ⟨hw, fun h' hh' => ?_⟩
    show v ∈ if v.toVarKey ∈ h' then [] else [v]
    rw [if_neg hh']
    exact hv

theorem unhidden_occurrences (v : Var) (e : Expr) : Unhidden v e.occurrences := by
  induction e using Expr.induction with
  | const c => exact fun _ hv => nomatch hv
  | var w => exact unhidden_var w
  | complement w => exact unhidden_var w
  | list es ih => exact .all ih
  | op o args ih => exact .all ih
  | compare c lhs rhs ihl ihr => exact ihl.append ihr
  | element array index iha ihi => exact (Unhidden.all iha).append ihi
  | global g iha ihm =>
    cases g with
    | plain kind args => exact .all iha
    | count args value =>
      exact (Unhidden.all fun e he => iha e (List.mem_append_left _ he)).append
        (iha value (List.mem_append_right _ (List.mem_singleton_self value)))
    | cardinality args values counts =>
      exact (Unhidden.all fun e he => iha e (List.mem_append_left _ he)).append
        (Unhidden.all fun e he => iha e (List.mem_append_right _ he))
    | named name args => exact .all iha
    | defined name args constraints newVars =>
      refine Unhidden.append (f := fun hidden => occurrencesInAll (hidden ++ keysOf newVars)
        constraints) (fun hidden hv => ?_) (.all iha)
      obtain ⟨hnot, hmore⟩ := Unhidden.all ihm _ hv
      rw [List.mem_append, not_or] at hnot
      refine ⟨hnot.1, fun h' hh' => hmore _ ?_⟩
      rw [List.mem_append, not_or]
      exact ⟨hh', hnot.2⟩

namespace Valuation.Agree

theorem symm (h : Agree σ τ hidden e) : Agree τ σ hidden e :=
  ⟨fun v hv => (h.occurrences v hv).symm, fun k hk => (h.hidden k hk).symm⟩

theorem child (h : Agree σ τ hidden e) (hd : d ∈ e.children) : Agree σ τ hidden d :=
  ⟨fun v hv => h.occurrences v (mem_occurrences_of_child hd hv), h.hidden⟩

theorem member {g : Global} (h : Agree σ τ hidden (.global g)) (hd : d ∈ g.members)
    (hin : ∀ k ∈ keysOf g.newVars, ρ' k = ρ k) (hρ : ∀ k ∉ keysOf g.newVars, ρ k = σ k)
    (hout : ∀ k ∉ keysOf g.newVars, ρ' k = τ k) :
    Agree ρ ρ' (hidden ++ keysOf g.newVars) d := by
  have htransfer : ∀ k, σ k = τ k → ρ k = ρ' k := fun k hk => by
    by_cases hmem : k ∈ keysOf g.newVars
    · exact (hin k hmem).symm
    · rw [hρ k hmem, hout k hmem, hk]
  refine ⟨fun v hv => htransfer _ (h.occurrences v (mem_occurrences_of_member hd hv)),
    fun k hk => ?_⟩
  rcases List.mem_append.1 hk with hk | hk
  · exact htransfer k (h.hidden k hk)
  · exact (hin k hk).symm

theorem var (h : Agree σ τ hidden e) (he : e.occurrences hidden = if v.toVarKey ∈ hidden then []
    else [v]) : σ v.toVarKey = τ v.toVarKey := by
  by_cases hmem : v.toVarKey ∈ hidden
  · exact h.hidden _ hmem
  · exact h.occurrences v (by rw [he, if_neg hmem]; exact List.mem_singleton_self v)

/-- Some choice of the introduced variables makes a condition true under one valuation if it does
under the other. -/
theorem any_extensions {g : Global} {P : Valuation → Bool} (h : Agree σ τ hidden (.global g))
    (hP : ∀ ρ ρ', (∀ d ∈ g.members, Agree ρ ρ' (hidden ++ keysOf g.newVars) d) → P ρ = P ρ')
    (htrue : (σ.extensions g.newVars).any P = true) : (τ.extensions g.newVars).any P = true := by
  rw [List.any_eq_true] at htrue ⊢
  obtain ⟨ρ, hρ, htrue⟩ := htrue
  obtain ⟨ρ', hρ', hin, hout⟩ := exists_extension τ hρ
  refine ⟨ρ', hρ', ?_⟩
  rw [← hP ρ ρ' fun d hd => h.member hd hin (mem_extensions.1 hρ).1 hout]
  exact htrue

end Valuation.Agree

/-! ## Values -/

/-- The value of the expression depends only on the variables that occur in it. -/
def HasFrame (e : Expr) : Prop :=
  ∀ ⦃σ τ : Valuation⦄ ⦃hidden : List VarKey⦄, Agree σ τ hidden e → e.value? σ = e.value? τ

theorem valuesOf_congr {es : List Expr} (ih : ∀ d ∈ es, HasFrame d)
    (h : ∀ d ∈ es, Agree σ τ hidden d) : valuesOf σ es = valuesOf τ es := by
  rw [valuesOf_eq_map, valuesOf_eq_map]
  exact List.map_congr_left fun d hd => ih d hd (h d hd)

theorem Global.value?_congr {g : Global} (iha : ∀ d ∈ g.args, HasFrame d)
    (ihm : ∀ d ∈ g.members, HasFrame d) (h : Agree σ τ hidden (.global g)) :
    g.value? σ = g.value? τ := by
  cases g with
  | plain kind args =>
    have hargs : valuesOf σ args = valuesOf τ args := valuesOf_congr iha fun d hd => h.child hd
    rw [Global.value?, Global.value?, hargs]
  | count args value =>
    have hargs : valuesOf σ args = valuesOf τ args :=
      valuesOf_congr (fun d hd => iha d (List.mem_append_left _ hd))
        fun d hd => h.child (List.mem_append_left _ hd)
    have hlast : value ∈ args ++ [value] := List.mem_append_right _ (List.mem_singleton_self value)
    rw [Global.value?, Global.value?, hargs, iha value hlast (h.child hlast)]
  | cardinality args values counts =>
    have hargs : valuesOf σ args = valuesOf τ args :=
      valuesOf_congr (fun d hd => iha d (List.mem_append_left _ hd))
        fun d hd => h.child (List.mem_append_left _ hd)
    have hcounts : valuesOf σ counts = valuesOf τ counts :=
      valuesOf_congr (fun d hd => iha d (List.mem_append_right _ hd))
        fun d hd => h.child (List.mem_append_right _ hd)
    rw [Global.value?, Global.value?, hargs, hcounts]
  | named name args => rfl
  | defined name args constraints newVars =>
    rw [Global.value?, Global.value?]
    refine congrArg (fun b => some (ofTruth b)) (Bool.eq_iff_iff.2 ⟨h.any_extensions ?_,
      h.symm.any_extensions ?_⟩) <;>
    · intro ρ ρ' hagree
      have hmembers : valuesOf ρ constraints = valuesOf ρ' constraints := valuesOf_congr ihm hagree
      rw [hmembers]

/-- The value of an expression depends only on the variables that occur in it. -/
theorem hasFrame (e : Expr) : HasFrame e := by
  induction e using Expr.induction with
  | const c => exact fun _ _ _ _ => rfl
  | var v =>
    intro σ τ hidden h
    rw [Expr.value?, Expr.value?, h.var rfl]
  | complement v =>
    intro σ τ hidden h
    rw [Expr.value?, Expr.value?, h.var rfl]
  | list es _ => exact fun _ _ _ _ => rfl
  | op o args ih =>
    intro σ τ hidden h
    rw [Expr.value?, Expr.value?, valuesOf_congr ih fun d hd => h.child hd]
  | compare c lhs rhs ihl ihr =>
    intro σ τ hidden h
    rw [Expr.value?, Expr.value?, ihl (h.child (by simp [Expr.children])),
      ihr (h.child (by simp [Expr.children]))]
  | element array index iha ihi =>
    intro σ τ hidden h
    rw [Expr.value?, Expr.value?, valuesOf_congr iha fun d hd =>
      h.child (List.mem_append_left _ hd), ihi (h.child (by simp [Expr.children]))]
  | global g iha ihm =>
    intro σ τ hidden h
    rw [Expr.value?, Expr.value?, Global.value?_congr iha ihm h]

theorem isTrue_congr (h : Agree σ τ hidden e) : e.isTrue σ = e.isTrue τ := by
  rw [Expr.isTrue, Expr.isTrue, hasFrame e h]

theorem itemValues_congr (h : Agree σ τ hidden e) : e.itemValues σ = e.itemValues τ := by
  unfold Expr.itemValues
  cases e with
  | list items => exact valuesOf_congr (fun d _ => hasFrame d) fun d hd => h.child hd
  | _ => exact valuesOf_congr (fun d _ => hasFrame d) fun d hd => List.mem_singleton.1 hd ▸ h

/-! ## Truth -/

/-- The truth of the expression depends only on the variables that occur in it. -/
def TruthHasFrame (e : Expr) : Prop :=
  ∀ ⦃σ τ : Valuation⦄ ⦃hidden : List VarKey⦄, Agree σ τ hidden e → e.holds σ = e.holds τ

theorem holdsAll_congr {es : List Expr} (ih : ∀ d ∈ es, TruthHasFrame d)
    (h : ∀ d ∈ es, Agree σ τ hidden d) : holdsAll σ es = holdsAll τ es := by
  rw [Bool.eq_iff_iff, holdsAll_iff, holdsAll_iff]
  exact forall₂_congr fun d hd => by rw [ih d hd (h d hd)]

theorem Global.holds_congr {g : Global} (ihm : ∀ d ∈ g.members, TruthHasFrame d)
    (h : Agree σ τ hidden (.global g)) : g.holds σ = g.holds τ := by
  cases g with
  | plain kind args =>
    cases kind with
    | allEqual =>
      have hitems : args.map (Expr.itemValues σ) = args.map (Expr.itemValues τ) :=
        List.map_congr_left fun d hd => itemValues_congr (h.child hd)
      rw [Global.holds, Global.holds, hitems]
    | allDifferent =>
      have hargs : valuesOf σ args = valuesOf τ args :=
        valuesOf_congr (fun d _ => hasFrame d) fun d hd => h.child hd
      rw [Global.holds, Global.holds, hargs, isTrue_congr h]
    | min => rfl
    | max => rfl
    | _ => exact isTrue_congr h
  | count args value => rfl
  | cardinality args values counts =>
    have hargs : valuesOf σ args = valuesOf τ args :=
      valuesOf_congr (fun d _ => hasFrame d) fun d hd => h.child (List.mem_append_left _ hd)
    rw [Global.holds, Global.holds, hargs]
    rw [Bool.eq_iff_iff, List.all_eq_true, List.all_eq_true]
    refine forall₂_congr fun ⟨value, c⟩ hentry => ?_
    have hcount : c ∈ args ++ counts := List.mem_append_right _ (List.of_mem_zip hentry).2
    dsimp only
    rw [itemValues_congr (h.child hcount)]
  | named name args => rfl
  | defined name args constraints newVars =>
    rw [Global.holds, Global.holds]
    refine Bool.eq_iff_iff.2 ⟨h.any_extensions ?_, h.symm.any_extensions ?_⟩ <;>
    · intro ρ ρ' hagree
      exact holdsAll_congr ihm hagree

theorem truthHasFrame (e : Expr) : TruthHasFrame e := by
  induction e using Expr.induction with
  | list es ih =>
    intro σ τ hidden h
    rw [Expr.holds, Expr.holds, holdsAll_congr ih fun d hd => h.child hd]
  | op o args ih =>
    intro σ τ hidden h
    cases o with
    | and =>
      rw [Expr.holds, Expr.holds]
      exact holdsAll_congr ih fun d hd => h.child hd
    | implies =>
      rcases args with _ | ⟨a, _ | ⟨b, _ | ⟨c, rest⟩⟩⟩
      · exact isTrue_congr h
      · exact isTrue_congr h
      · have ha : a ∈ [a, b] := List.mem_cons_self
        have hb : b ∈ [a, b] := List.mem_cons_of_mem _ List.mem_cons_self
        rw [Expr.holds, Expr.holds, isTrue_congr (h.child ha), ih b hb (h.child hb)]
      · exact isTrue_congr h
    | _ => exact isTrue_congr h
  | compare c lhs rhs _ _ =>
    intro σ τ hidden h
    rw [Expr.holds, Expr.holds, itemValues_congr (h.child (by simp [Expr.children])),
      itemValues_congr (h.child (by simp [Expr.children]))]
  | global g _ ihm =>
    intro σ τ hidden h
    rw [Expr.holds, Expr.holds, Global.holds_congr ihm h]
  | const c => exact fun _ _ _ _ => rfl
  | var v => exact fun _ _ _ h => isTrue_congr h
  | complement v => exact fun _ _ _ h => isTrue_congr h
  | element array index _ _ => exact fun _ _ _ h => isTrue_congr h

end Linearization
