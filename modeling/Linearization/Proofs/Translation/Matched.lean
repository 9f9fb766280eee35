import Linearization.Proofs.Expr.Alike
import Linearization.Proofs.Ilp.Tracking
import Linearization.Proofs.Translation.Images
import Linearization.Proofs.Translation.Unfolds

/-!
# Drafts with matched variables

Two translations that have done different things before may go on with the same expression. What
belongs together in them are columns and variables (`Pairing`): most variables belong to themselves,
but the nodes of a cycle are numbered by the columns of the program they are introduced in. A
variable need not be registered on both sides; once it is, its columns are matched
(`Draft.Matched`).

Each side may register variables on its own (`Matched.withVars_left`), and both together what a
decomposition introduces (`Matched.newVars`).
-/

namespace Linearization

open Linearization.Valuation

/-- Which columns and which variables of two translations belong together. -/
abbrev Pairing := Matching Nat × Matching VarKey

namespace Pairing

def flip (w : Pairing) : Pairing := (w.1.flip, w.2.flip)

end Pairing

namespace Draft

/-- The column of a variable, if it is registered. -/
def column? (t : Draft) (k : VarKey) : Option Nat := (t.layout.get? ⟨k, ""⟩).map Image.column

/-- The columns of variables that belong together; either may be missing so far. -/
def Roles (V : Matching VarKey) (t t' : Draft) (o o' : Option Nat) : Prop :=
  ∃ k k', V.Pairs k k' ∧ o = t.column? k ∧ o' = t'.column? k'

/-- The variable of the given identity could be registered by now. -/
def Scope (t : Draft) (k : VarKey) : Prop := Var.InScope t.program.columns.size ⟨k, ""⟩

/-- Variables that belong together have the same domain, and columns that are matched if they have
any. -/
structure Matched (w : Pairing) (t t' : Draft) : Prop where
  program : t.program.Matched (Roles w.2 t t') w.1 t'.program
  faithful : t.Faithful ∧ t'.Faithful
  inScope : (∀ v, t.layout.Has v → v.InScope t.program.columns.size) ∧
    ∀ v, t'.layout.Has v → v.InScope t'.program.columns.size
  depth : t.depth = t'.depth
  keys : ∀ k k', w.2.Pairs k k' → k.domain = k'.domain ∧ t.Scope k ∧ t'.Scope k'

variable {t t' s : Draft} {w : Pairing} {v v' : Var} {vs : List Var} {k k' : VarKey} {i j : Nat}
  {q : Ilp}

/-! ## Columns of variables -/

theorem toColumn_ne_alwaysTrue (v : Var) : v.toColumn ≠ .alwaysTrue := by
  intro h
  have hbool : v.isBool = true := congrArg Column.isBool h
  have hlower : v.domain.lower = 1 := congrArg Column.lower h
  unfold Var.isBool at hbool
  rw [beq_iff_eq] at hbool
  rw [hbool] at hlower
  cases hlower

theorem column?_eq_some : t.column? k = some i ↔
    ∃ image, t.layout.get? ⟨k, ""⟩ = some image ∧ image.column = i := Option.map_eq_some_iff

theorem column?_eq_none : t.column? k = none ↔ ¬ t.layout.Has ⟨k, ""⟩ := by
  unfold column? Layout.Has
  rw [Option.map_eq_none_iff, Option.not_isSome_iff_eq_none]

namespace Faithful

theorem column (h : t.Faithful) (hk : t.column? k = some i) :
    ∃ v : Var, v.toVarKey = k ∧ t.program.columns[i]? = some v.toColumn := by
  obtain ⟨image, hget, rfl⟩ := column?_eq_some.1 hk
  obtain ⟨v, hmem, hkey⟩ := exists_entry hget
  exact ⟨v, hkey, (h.own _ hmem).2⟩

theorem ordinary (h : t.Faithful) (hk : t.column? k = some i) : t.program.Ordinary i := by
  obtain ⟨v, -, hc⟩ := h.column hk
  exact ⟨_, hc, toColumn_ne_alwaysTrue v⟩

theorem column?_inj (h : t.Faithful) (hk : t.column? k = some i) (hk' : t.column? k' = some i) :
    k = k' := by
  obtain ⟨image, hget, hi⟩ := column?_eq_some.1 hk
  obtain ⟨image', hget', hi'⟩ := column?_eq_some.1 hk'
  exact h.key_eq hget hget' (hi.trans hi'.symm)

theorem images (h : t.Faithful) {image : Image} (hv : t.layout.get? v = some image) :
    image = v.imageAt image.column ∧ ∃ c, t.program.columns[image.column]? = some c ∧
      c.lower = v.domain.lower ∧ c.upper = v.domain.upper := by
  obtain ⟨u, hmem, hkey⟩ := exists_entry hv
  obtain ⟨himage, hc⟩ := h.own _ hmem
  have hdomain : u.domain = v.domain := congrArg VarKey.domain hkey
  refine ⟨?_, _, hc, congrArg Domain.lower hdomain, congrArg Domain.upper hdomain⟩
  have hbool : u.isBool = v.isBool := by
    unfold Var.isBool
    rw [hdomain]
  unfold Var.imageAt at himage ⊢
  rwa [← hbool]

end Faithful

theorem Scope.mono (h : t.Scope k) (hle : t.program.columns.size ≤ s.program.columns.size) :
    s.Scope k := Var.InScope.mono h hle

namespace Matched

theorem flip (h : t.Matched w t') : t'.Matched w.flip t where
  program := h.program.flip.imp_roles fun _ _ ⟨k, k', hk, ho, ho'⟩ => ⟨k', k, hk, ho', ho⟩
  faithful := h.faithful.symm
  inScope := h.inScope.symm
  depth := h.depth.symm
  keys k k' hk := by
    obtain ⟨hdomain, hscope, hscope'⟩ := h.keys k' k hk
    exact ⟨hdomain.symm, hscope', hscope⟩

theorem wellFormed (h : t.Matched w t') : t.WellFormed :=
  ⟨h.program.left.wellFormed, fun _ _ => h.faithful.1.images, h.inScope.1⟩

theorem of_programs {q' : Ilp} {N : Matching Nat} (h : t.Matched w t')
    (hq : q.Matched (Roles w.2 t t') N q') (hc : t.program.KeepsColumns q)
    (hc' : t'.program.KeepsColumns q') :
    Draft.Matched (N, w.2) { t with program := q } { t' with program := q' } := by
  have hsize : ∀ {p q : Ilp}, p.KeepsColumns q → p.columns.size ≤ q.columns.size := fun hpq => by
    simpa using List.IsPrefix.length_le hpq
  refine ⟨hq, ⟨h.faithful.1.of_program rfl hc, h.faithful.2.of_program rfl hc'⟩,
    ⟨fun v hv => (h.inScope.1 v hv).mono (hsize hc),
      fun v hv => (h.inScope.2 v hv).mono (hsize hc')⟩, h.depth, fun k k' hk => ?_⟩
  obtain ⟨hdomain, hscope, hscope'⟩ := h.keys k k' hk
  exact ⟨hdomain, hscope.mono (hsize hc), hscope'.mono (hsize hc')⟩

theorem atDepth (h : t.Matched w t') (depth deepest deepest' : Nat) :
    Draft.Matched w { t with depth, deepest } { t' with depth, deepest := deepest' } :=
  ⟨h.program,
    ⟨⟨h.faithful.1.own, h.faithful.1.distinct⟩, ⟨h.faithful.2.own, h.faithful.2.distinct⟩⟩,
    h.inScope, rfl, h.keys⟩

theorem logged (h : t.Matched w t') (g g' : Global) : (t.logged g).Matched w (t'.logged g') :=
  ⟨h.program,
    ⟨⟨h.faithful.1.own, h.faithful.1.distinct⟩, ⟨h.faithful.2.own, h.faithful.2.distinct⟩⟩,
    h.inScope, h.depth, h.keys⟩

/-! ## Registration -/

theorem column?_withVar (hv : ¬ t.layout.Has v) : (t.withVar v).column? k =
    if v.toVarKey = k then some t.program.columns.size else t.column? k := by
  rw [withVar_of_not_has hv]
  unfold column?
  rw [Layout.get?_insert]
  by_cases h : v.toVarKey = k
  · rw [if_pos h, if_pos h, Option.map_some, Var.column_imageAt]
  · rw [if_neg h, if_neg h]

/-- A variable gets its column on the left, where its partner may have one on the right already. -/
theorem program_withVar_of_pairs (h : t.Matched w t') (hhas : ¬ t.layout.Has v) {k' : VarKey}
    (hk' : w.2.Pairs v.toVarKey k') :
    ∃ N, w.1 ≤ N ∧
      (t.program.withColumn v.toColumn).Matched (Roles w.2 (t.withVar v) t') N t'.program := by
  obtain ⟨hdomain, -, -⟩ := h.keys _ _ hk'
  refine h.program.fill_role (toColumn_ne_alwaysTrue v)
    ⟨_, k', hk', (column?_eq_none.2 hhas).symm, rfl⟩ (fun j hj => ?_) fun o o' hrole => ?_
  · obtain ⟨v', hkey, hc'⟩ := h.faithful.2.column hj
    have hdomain' : v.domain = v'.domain := hdomain.trans (congrArg VarKey.domain hkey.symm)
    exact ⟨_, _, t.program.getElem?_withColumn_size _, hc', congrArg Domain.lower hdomain',
      congrArg Domain.upper hdomain'⟩
  · obtain ⟨k, l, hkl, rfl, rfl⟩ := hrole
    rw [column?_withVar hhas]
    split
    · rename_i heq
      obtain rfl := w.2.unique_right hk' (heq ▸ hkl)
      exact .inl ⟨rfl, rfl⟩
    · rename_i hne
      refine .inr ⟨⟨k, l, hkl, rfl, rfl⟩, ?_⟩
      cases hl : t'.column? l with
      | none => exact .inr rfl
      | some j =>
        refine .inl fun heq => hne ?_
        obtain rfl := h.faithful.2.column?_inj hl heq.symm
        exact w.2.unique_left hk' hkl

theorem program_withVar_of_freeLeft (h : t.Matched w t') (hhas : ¬ t.layout.Has v)
    (hfree : w.2.FreeLeft v.toVarKey) :
    (t.program.withColumn v.toColumn).Matched (Roles w.2 (t.withVar v) t') w.1 t'.program := by
  have hgrown := h.program.grow_of_trueColumn (t.program.grows_withColumn v.toColumn)
    (h.program.left.withColumn (toColumn_ne_alwaysTrue v)) rfl
  refine hgrown.imp_roles ?_
  rintro o o' ⟨k, k', hk, rfl, rfl⟩
  refine ⟨k, k', hk, ?_, rfl⟩
  rw [column?_withVar hhas, if_neg]
  rintro rfl
  exact hfree k' hk

/-- A variable is registered on the left. -/
theorem withVar_left (h : t.Matched w t') (hv : v.InScope (t.program.columns.size + 1)) :
    ∃ N, w.1 ≤ N ∧ (t.withVar v).Matched (N, w.2) t' := by
  by_cases hhas : t.layout.Has v
  · rw [withVar_of_has hhas]
    exact ⟨w.1, le_refl _, h⟩
  have hprogram : (t.withVar v).program = t.program.withColumn v.toColumn := by
    rw [withVar_of_not_has hhas]
  have hdepth : (t.withVar v).depth = t.depth := by rw [withVar_of_not_has hhas]
  obtain ⟨N, hle, hN⟩ : ∃ N, w.1 ≤ N ∧
      (t.program.withColumn v.toColumn).Matched (Roles w.2 (t.withVar v) t') N t'.program := by
    by_cases hpartner : ∃ k', w.2.Pairs v.toVarKey k'
    · obtain ⟨k', hk'⟩ := hpartner
      exact h.program_withVar_of_pairs hhas hk'
    · exact ⟨w.1, le_refl _, h.program_withVar_of_freeLeft hhas (not_exists.1 hpartner)⟩
  refine ⟨N, hle, hprogram ▸ hN, ⟨h.faithful.1.withVar v, h.faithful.2⟩,
    ⟨(h.wellFormed.withVar hv).inScope, h.inScope.2⟩, hdepth.trans h.depth, fun k k' hk => ?_⟩
  obtain ⟨hdomain, hscope, hscope'⟩ := h.keys k k' hk
  exact ⟨hdomain, hscope.mono (t.grows_withVar v).program.size_le, hscope'⟩

theorem withVars_left (h : t.Matched w t') (hvs : t.InOrder vs) :
    ∃ N, w.1 ≤ N ∧ (t.withVars vs).Matched (N, w.2) t' := by
  induction vs generalizing t w with
  | nil => exact ⟨w.1, le_refl _, h⟩
  | cons v vs ih =>
    obtain ⟨N, hN, hmatched⟩ := h.withVar_left hvs.1
    obtain ⟨N', hN', hmatched'⟩ := ih hmatched hvs.2
    exact ⟨N', le_trans hN hN', hmatched'⟩

theorem withVars_right (h : t.Matched w t') (hvs : t'.InOrder vs) :
    ∃ N, w.1 ≤ N ∧ t.Matched (N, w.2) (t'.withVars vs) := by
  obtain ⟨N, hN, hmatched⟩ := h.flip.withVars_left hvs
  exact ⟨N.flip, Matching.flip_mono hN, hmatched.flip⟩

/-- A variable is registered on each side, and they belong together from then on. Both are so new
that nothing can have been paired with them. -/
theorem withVar_pair (h : t.Matched w t') (hdomain : v.domain = v'.domain)
    (hv : v.InScope (t.program.columns.size + 1)) (hv' : v'.InScope (t'.program.columns.size + 1))
    (hnew : ¬ v.InScope t.program.columns.size) (hnew' : ¬ v'.InScope t'.program.columns.size) :
    ∃ u, w ≤ u ∧ u.2.Pairs v.toVarKey v'.toVarKey ∧ (t.withVar v).Matched u (t'.withVar v') := by
  have hhas : ¬ t.layout.Has v := fun hhas => hnew (h.inScope.1 v hhas)
  have hhas' : ¬ t'.layout.Has v' := fun hhas => hnew' (h.inScope.2 v' hhas)
  -- only variables in scope are paired, and neither of the two was
  have hfree : w.2.FreeLeft v.toVarKey := fun k hk => hnew (h.keys _ _ hk).2.1
  have hfree' : w.2.FreeRight v'.toVarKey := fun k hk => hnew' (h.keys _ _ hk).2.2
  have hgrows := (t.grows_withVar v).program.size_le
  have hgrows' := (t'.grows_withVar v').program.size_le
  have hprogram : (t.withVar v).program = t.program.withColumn v.toColumn := by
    rw [withVar_of_not_has hhas]
  have hprogram' : (t'.withVar v').program = t'.program.withColumn v'.toColumn := by
    rw [withVar_of_not_has hhas']
  have hdepth : (t.withVar v).depth = (t'.withVar v').depth := by
    rw [withVar_of_not_has hhas, withVar_of_not_has hhas']
    exact h.depth
  obtain ⟨N, hN, hpairs, hmatched⟩ := h.program.pair_withColumn (toColumn_ne_alwaysTrue v)
    (toColumn_ne_alwaysTrue v') (congrArg Domain.lower hdomain) (congrArg Domain.upper hdomain)
  refine ⟨(N, w.2.insert _ _ hfree hfree'), ⟨hN, Matching.le_insert hfree hfree'⟩,
    Matching.pairs_insert hfree hfree', ?_, ⟨h.faithful.1.withVar v, h.faithful.2.withVar v'⟩,
    ⟨(h.wellFormed.withVar hv).inScope, (h.flip.wellFormed.withVar hv').inScope⟩, hdepth, ?_⟩
  · rw [hprogram, hprogram']
    refine hmatched.add_role hpairs
      ⟨_, t.program.getElem?_withColumn_size _, toColumn_ne_alwaysTrue v⟩
      ⟨_, t'.program.getElem?_withColumn_size _, toColumn_ne_alwaysTrue v'⟩ ?_
    rintro o o' ⟨k, k', hk, rfl, rfl⟩
    rw [column?_withVar hhas, column?_withVar hhas']
    rcases hk with hk | ⟨rfl, rfl⟩
    · refine .inl ⟨k, k', hk, if_neg ?_, if_neg ?_⟩
      · rintro rfl
        exact hfree _ hk
      · rintro rfl
        exact hfree' _ hk
    · rw [if_pos rfl, if_pos rfl]
      exact .inr ⟨rfl, rfl⟩
  · rintro k k' (hk | ⟨rfl, rfl⟩)
    · obtain ⟨hdomain, hscope, hscope'⟩ := h.keys k k' hk
      exact ⟨hdomain, hscope.mono hgrows, hscope'.mono hgrows'⟩
    · refine ⟨hdomain, ?_, ?_⟩
      · unfold Scope
        rw [hprogram, Ilp.size_withColumn]
        exact hv
      · unfold Scope
        rw [hprogram', Ilp.size_withColumn]
        exact hv'

/-- The nodes of a cycle are registered on each side, and belong together step by step. -/
theorem withVars_orderVars {first first' : Nat} (size start count : Nat) (h : t.Matched w t')
    (hsize : t.program.columns.size = first + start)
    (hsize' : t'.program.columns.size = first' + start) :
    ∃ u, w ≤ u ∧
      (∀ step, start ≤ step → step < start + count → u.2.Pairs (orderVar first size step).toVarKey
        (orderVar first' size step).toVarKey) ∧
      (t.withVars ((List.range' start count).map (orderVar first size))).Matched u
        (t'.withVars ((List.range' start count).map (orderVar first' size))) := by
  induction count generalizing t t' w start with
  | zero => exact ⟨w, le_refl w, fun step hle hlt => by omega, h⟩
  | succ count ih =>
    have hnumbered : ∀ {first n : Nat}, n = first + start →
        (orderVar first size start).InScope (n + 1) ∧ ¬ (orderVar first size start).InScope n := by
      rintro first n rfl
      refine ⟨fun column hc => ?_, fun hscope => Nat.lt_irrefl _ (hscope _ rfl)⟩
      cases hc
      exact Nat.lt_succ_self _
    have hnext : ∀ {s : Draft} {first : Nat}, s.WellFormed →
        s.program.columns.size = first + start →
        (s.withVar (orderVar first size start)).program.columns.size = first + (start + 1) := by
      intro s first hs hn
      rw [withVar_of_not_has fun hhas => (hnumbered hn).2 (hs.inScope _ hhas)]
      exact (Ilp.size_withColumn _ _).trans (congrArg Nat.succ hn)
    have hdomain : (orderVar first size start).domain = (orderVar first' size start).domain := rfl
    obtain ⟨u, hu, hpairs, hmatched⟩ := h.withVar_pair hdomain (hnumbered hsize).1
      (hnumbered hsize').1 (hnumbered hsize).2 (hnumbered hsize').2
    obtain ⟨u', hu', hrest, hmatched'⟩ := ih (start + 1) hmatched (hnext h.wellFormed hsize)
      (hnext h.flip.wellFormed hsize')
    refine ⟨u', le_trans hu hu', fun step hle hlt => ?_, hmatched'⟩
    rcases Nat.eq_or_lt_of_le hle with rfl | hlt'
    · exact hu'.2 _ _ hpairs
    · exact hrest step hlt' (by omega)

/-! ## Decompositions -/

variable {g g' : Global} {d d' : Decomposition}

theorem allVars (h : t.Matched w t') {e e' : Expr} (he : e.Alike w.2.Pairs e') :
    e.AllVars (Var.InScope t.program.columns.size) ∧
      e'.AllVars (Var.InScope t'.program.columns.size) :=
  Expr.Alike.allVars (fun k k' hk => (h.keys k k' hk).2) he

theorem newVars (h : t.Matched w t') (hg : g.Alike w.2.Pairs g')
    (hd : g.decompose t.program.columns.size = some d)
    (hd' : g'.decompose t'.program.columns.size = some d') :
    ∃ u, w ≤ u ∧
      (∀ args, g = .plain .circuit args → ∀ step < args.length,
        u.2.Pairs (orderVar t.program.columns.size args.length step).toVarKey
          (orderVar t'.program.columns.size args.length step).toVarKey) ∧
      (t.withVars d.newVars).Matched u (t'.withVars d'.newVars) := by
  obtain ⟨hscope, hscope'⟩ := h.allVars (.global hg)
  have horder := (Translate.inOrder_expand h.wellFormed hscope hd).2
  have horder' := (Translate.inOrder_expand h.flip.wellFormed hscope' hd').2
  by_cases hcircuit : ∃ args, g = .plain .circuit args
  · obtain ⟨args, rfl⟩ := hcircuit
    cases hg with
    | plain _ hargs =>
      cases hd
      cases hd'
      rw [newVars_circuitDecomposition, newVars_circuitDecomposition, ← hargs.length_eq,
        List.range_eq_range']
      obtain ⟨u, hu, hpairs, hmatched⟩ := h.withVars_orderVars args.length 0 args.length rfl rfl
      refine ⟨u, hu, ?_, hmatched⟩
      rintro _ ⟨⟩ step hstep
      exact hpairs step (Nat.zero_le _) (by omega)
  · obtain ⟨N, hN, hmatched⟩ := h.withVars_left (inOrder_append.1 horder).1
    obtain ⟨N', hN', hmatched'⟩ := hmatched.withVars_right (inOrder_append.1 horder').1
    exact ⟨(N', w.2), ⟨le_trans hN hN', le_refl _⟩, fun args hargs => (hcircuit ⟨args, hargs⟩).elim,
      hmatched'⟩

/-- Each side registers what is needed for the members of the decomposition of its global. -/
theorem expand (h : t.Matched w t') (hg : g.Alike w.2.Pairs g')
    (hd : g.decompose t.program.columns.size = some d) :
    ∃ u d', g'.decompose t'.program.columns.size = some d' ∧ w ≤ u ∧
      (t.expanded d).Matched u (t'.expanded d') ∧
      List.Forall₂ (Expr.Alike u.2.Pairs) d.constraints d'.constraints := by
  have hany : ∃ d', g'.decompose t'.program.columns.size = some d' ∧
      List.Forall₂ (Expr.Alike fun _ _ => True) d.constraints d'.constraints :=
    hg.decompose (fun _ _ _ => trivial) hd fun _ _ _ _ => trivial
  obtain ⟨d', hd', -⟩ := hany
  obtain ⟨u, hu, hnodes, hmatched⟩ := h.newVars hg hd hd'
  obtain ⟨hscope, hscope'⟩ := h.allVars (.global hg)
  have horder := (Translate.inOrder_expand h.wellFormed hscope hd).2
  have horder' := (Translate.inOrder_expand h.flip.wellFormed hscope' hd').2
  obtain ⟨N, hN, hleft⟩ := hmatched.withVars_left (inOrder_append.1 horder).2
  obtain ⟨N', hN', hboth⟩ := hleft.withVars_right (inOrder_append.1 horder').2
  obtain ⟨_, hd'', hmembers⟩ := hg.decompose hu.2 hd hnodes
  cases hd'.symm.trans hd''
  refine ⟨(N', u.2), d', hd', le_trans hu ⟨le_trans hN hN', le_refl _⟩, ?_, hmembers⟩
  unfold Draft.expanded
  rw [withVars_append, withVars_append]
  exact hboth

end Matched

end Draft

end Linearization
