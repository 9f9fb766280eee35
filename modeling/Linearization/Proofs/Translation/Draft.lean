import Linearization.Proofs.Ilp.Extends
import Linearization.Expr.Decomposition
import Linearization.Proofs.Translation.Layout
import Linearization.Translation.Draft

/-!
# Drafts and registration

The invariant of a translation under way (`Draft.WellFormed`): the program is well-formed, and every
registered variable has a column with the bounds of its domain. A variable that a decomposition has
introduced is numbered below the number of columns, so the next decomposition introduces new ones.

Registration never fails. It excludes nothing: the new variables may take any values of their
domains (`Draft.exists_values`).
-/

namespace Linearization

open Linearization.Valuation

namespace Var

/-- The variable was declared and not introduced by a decomposition. -/
def IsDeclared (v : Var) : Prop := ∃ number, v.serial = .declared number

/-- If the variable was introduced by a decomposition, it is numbered below `n`. -/
def InScope (n : Nat) (v : Var) : Prop := ∀ column, v.serial = .introduced column → column < n

theorem IsDeclared.inScope {v : Var} (h : v.IsDeclared) (n : Nat) : v.InScope n := by
  intro column hc
  obtain ⟨number, hv⟩ := h
  rw [hc] at hv
  cases hv

theorem InScope.mono {m n : Nat} {v : Var} (h : v.InScope m) (hmn : m ≤ n) : v.InScope n :=
  fun column hc => Nat.lt_of_lt_of_le (h column hc) hmn

@[simp] theorem column_imageAt (v : Var) (i : Nat) : (v.imageAt i).column = i := by
  unfold imageAt
  split <;> rfl

end Var

namespace Draft

/-- The program has grown, and every registered variable has kept its column. -/
structure Grows (t t' : Draft) : Prop where
  program : t.program.Grows t'.program
  layout : t.layout.Grows t'.layout

/-- The program is well-formed, and every registered variable has a column with the bounds of its
domain. -/
structure Sound (t : Draft) : Prop where
  program : t.program.WellFormed
  images : ∀ v image, t.layout.get? v = some image → image = v.imageAt image.column ∧
    ∃ c, t.program.columns[image.column]? = some c ∧ c.lower = v.domain.lower ∧
      c.upper = v.domain.upper

/-- What every step of a translation preserves. -/
structure WellFormed (t : Draft) : Prop where
  program : t.program.WellFormed
  images : ∀ v image, t.layout.get? v = some image → image = v.imageAt image.column ∧
    ∃ c, t.program.columns[image.column]? = some c ∧ c.lower = v.domain.lower ∧
      c.upper = v.domain.upper
  inScope : ∀ v, t.layout.Has v → v.InScope t.program.columns.size

variable {t t' : Draft} {v w : Var} {vs ws : List Var} {x y : Assignment} {ρ : Valuation}

theorem Grows.refl (t : Draft) : t.Grows t := ⟨.refl _, .refl _⟩

theorem Grows.trans {t'' : Draft} (h : t.Grows t') (h' : t'.Grows t'') : t.Grows t'' :=
  ⟨h.program.trans h'.program, h.layout.trans h'.layout⟩

@[simp] theorem program_logged (t : Draft) (g : Global) : (t.logged g).program = t.program := rfl

@[simp] theorem layout_logged (t : Draft) (g : Global) : (t.logged g).layout = t.layout := rfl

namespace Sound

theorem start (limit : Nat) : (Draft.start limit).Sound where
  program := .empty limit
  images _ _ h := by cases h

theorem of_program (h : t.Sound) (hp : t'.program.WellFormed) (hl : t'.layout = t.layout)
    (hc : ∀ (i : Nat) (c : Column), t.program.columns[i]? = some c →
      t'.program.columns[i]? = some c) : t'.Sound where
  program := hp
  images v image hv := by
    rw [hl] at hv
    obtain ⟨himage, c, hcolumn, hbounds⟩ := h.images v image hv
    exact ⟨himage, c, hc _ c hcolumn, hbounds⟩

theorem atDepth (h : t.Sound) (depth deepest : Nat) : Draft.Sound { t with depth, deepest } :=
  ⟨h.program, h.images⟩

theorem logged (h : t.Sound) (g : Global) : (t.logged g).Sound := ⟨h.program, h.images⟩

theorem column_lt (h : t.Sound) {image : Image} (hv : t.layout.get? v = some image) :
    image.column < t.program.columns.size := by
  obtain ⟨-, c, hc, -⟩ := h.images v image hv
  exact (Array.getElem?_eq_some_iff.1 hc).1

end Sound

namespace WellFormed

theorem sound (h : t.WellFormed) : t.Sound := ⟨h.program, h.images⟩

theorem start (limit : Nat) : (Draft.start limit).WellFormed where
  program := .empty limit
  images _ _ h := by cases h
  inScope _ h := by cases h

theorem of_program (h : t.WellFormed) (hg : t.program.Grows t'.program)
    (hp : t'.program.WellFormed) (hl : t'.layout = t.layout) : t'.WellFormed where
  program := hp
  images := (h.sound.of_program hp hl fun _ _ hc => hg.column hc).images
  inScope v hv := by
    rw [hl] at hv
    exact (h.inScope v hv).mono hg.size_le

theorem atDepth (h : t.WellFormed) (depth deepest : Nat) :
    Draft.WellFormed { t with depth, deepest } := ⟨h.program, h.images, h.inScope⟩

theorem logged (h : t.WellFormed) (g : Global) : (t.logged g).WellFormed :=
  ⟨h.program, h.images, h.inScope⟩

theorem column_lt (h : t.WellFormed) {image : Image} (hv : t.layout.get? v = some image) :
    image.column < t.program.columns.size := h.sound.column_lt hv

/-- Only the columns of the program decide the values of the variables. -/
theorem valuation_congr (h : t.WellFormed) (hxy : AgreeBelow t.program.columns.size x y) :
    t.layout.valuation x = t.layout.valuation y := by
  funext k
  unfold Layout.valuation
  cases hk : t.layout.get? ⟨k, ""⟩ with
  | none => rfl
  | some image => exact hxy _ (h.column_lt hk)

/-- In a solution every registered variable has a value of its domain. -/
theorem admits (h : t.WellFormed) (hx : t.program.Solves x) (hv : t.layout.Has v) :
    v.domain.Admits (t.layout.valuation x v.toVarKey) := by
  obtain ⟨image, hv⟩ := Option.isSome_iff_exists.1 hv
  obtain ⟨-, c, hc, hl, hu⟩ := h.images v image hv
  rw [Layout.valuation_of_get? hv, Domain.Admits, ← hl, ← hu]
  exact hx.1 _ c hc

/-- A condition on the values of the variables is one on the columns of the program. -/
theorem local_valuation (h : t.WellFormed) (P : Valuation → Prop) :
    Local t.program.columns.size fun x => P (t.layout.valuation x) := fun x y hxy => by
  show P (t.layout.valuation x) ↔ P (t.layout.valuation y)
  rw [h.valuation_congr hxy]

end WellFormed

/-! ## Registration -/

/-- The draft in which a variable is registered. -/
def withVar (t : Draft) (v : Var) : Draft :=
  match t.layout.get? v with
  | some _ => t
  | none =>
    { t with
      program := t.program.withColumn v.toColumn
      layout := t.layout.insert v (v.imageAt t.program.columns.size) }

/-- The draft in which several variables are registered, one after the other. -/
def withVars (t : Draft) (vs : List Var) : Draft := vs.foldl withVar t

theorem withVar_of_has (h : t.layout.Has v) : t.withVar v = t := by
  obtain ⟨image, hv⟩ := Option.isSome_iff_exists.1 h
  unfold withVar
  rw [hv]

theorem withVar_of_not_has (h : ¬ t.layout.Has v) : t.withVar v =
    { t with
      program := t.program.withColumn v.toColumn
      layout := t.layout.insert v (v.imageAt t.program.columns.size) } := by
  unfold withVar
  rw [Option.not_isSome_iff_eq_none.1 h]

theorem withVars_of_has (h : ∀ v ∈ vs, t.layout.Has v) : t.withVars vs = t := by
  induction vs with
  | nil => rfl
  | cons v vs ih =>
    rw [withVars, List.foldl_cons, withVar_of_has (h v List.mem_cons_self)]
    exact ih fun w hw => h w (List.mem_cons_of_mem _ hw)

theorem withVars_append : t.withVars (vs ++ ws) = (t.withVars vs).withVars ws := List.foldl_append

theorem has_withVar : (t.withVar v).layout.Has w ↔ v.toVarKey = w.toVarKey ∨ t.layout.Has w := by
  by_cases h : t.layout.Has v
  · rw [withVar_of_has h]
    refine ⟨.inr, fun hw => hw.elim (fun heq => ?_) id⟩
    exact (Layout.has_congr heq).1 h
  · rw [withVar_of_not_has h]
    exact Layout.has_insert

theorem has_withVars : (t.withVars vs).layout.Has w ↔ w.toVarKey ∈ keysOf vs ∨ t.layout.Has w := by
  induction vs generalizing t with
  | nil => simp [withVars]
  | cons v vs ih =>
    rw [withVars, List.foldl_cons]
    show ((t.withVar v).withVars vs).layout.Has w ↔ _
    rw [ih, has_withVar, keysOf, keysOf, List.map_cons, List.mem_cons, ← or_assoc,
      or_comm (a := w.toVarKey ∈ keysOf vs), @eq_comm _ v.toVarKey]

theorem decomposed_withVars : (t.withVars vs).decomposed = t.decomposed := by
  induction vs generalizing t with
  | nil => rfl
  | cons v vs ih =>
    have hfirst : (t.withVar v).decomposed = t.decomposed := by
      unfold withVar
      split <;> rfl
    rw [withVars, List.foldl_cons, ← hfirst]
    exact ih

theorem grows_withVar (t : Draft) (v : Var) : t.Grows (t.withVar v) := by
  by_cases h : t.layout.Has v
  · rw [withVar_of_has h]
    exact .refl t
  · rw [withVar_of_not_has h]
    refine ⟨t.program.grows_withColumn _, fun w image hw => ?_⟩
    rw [Layout.get?_insert, if_neg, hw]
    intro heq
    refine h ((Layout.has_congr heq).2 ?_)
    exact Option.isSome_iff_exists.2 ⟨image, hw⟩

theorem grows_withVars (t : Draft) (vs : List Var) : t.Grows (t.withVars vs) := by
  induction vs generalizing t with
  | nil => exact .refl t
  | cons v vs ih => exact (t.grows_withVar v).trans (ih (t.withVar v))

theorem Sound.withVar (h : t.Sound) (v : Var) : (t.withVar v).Sound := by
  by_cases hhas : t.layout.Has v
  · rwa [withVar_of_has hhas]
  · rw [withVar_of_not_has hhas]
    refine ⟨h.program.withColumn _, fun w image hw => ?_⟩
    rw [Layout.get?_insert] at hw
    split at hw
    · rename_i heq
      cases hw
      rw [Var.column_imageAt]
      have hdomain : v.domain = w.domain := congrArg VarKey.domain heq
      refine ⟨?_, v.toColumn, t.program.getElem?_withColumn_size _, ?_, ?_⟩
      · unfold Var.imageAt Var.isBool
        rw [hdomain]
      · rw [← hdomain]
        rfl
      · rw [← hdomain]
        rfl
    · obtain ⟨himage, c, hc, hbounds⟩ := h.images w image hw
      exact ⟨himage, c, (t.program.grows_withColumn _).column hc, hbounds⟩

theorem Sound.withVars (h : t.Sound) (vs : List Var) : (t.withVars vs).Sound := by
  induction vs generalizing t with
  | nil => exact h
  | cons v vs ih => exact ih (h.withVar v)

/-- A variable may be registered if it is declared, or is numbered for the column it gets. -/
theorem WellFormed.withVar (h : t.WellFormed) (hv : v.InScope (t.program.columns.size + 1)) :
    (t.withVar v).WellFormed := by
  have hsound : (t.withVar v).Sound := h.sound.withVar v
  refine ⟨hsound.program, hsound.images, fun w hw => ?_⟩
  by_cases hhas : t.layout.Has v
  · rw [withVar_of_has hhas] at hw ⊢
    exact h.inScope w hw
  · rw [withVar_of_not_has hhas] at hw ⊢
    show w.InScope (t.program.withColumn v.toColumn).columns.size
    rw [Ilp.size_withColumn]
    rcases Layout.has_insert.1 hw with heq | hw
    · intro column hc
      exact hv column ((congrArg VarKey.serial heq).trans hc)
    · exact (h.inScope w hw).mono (Nat.le_succ _)

/-- Every variable is declared, or numbered no higher than the column that it gets. -/
def InOrder (t : Draft) : List Var → Prop
  | [] => True
  | v :: vs => v.InScope (t.program.columns.size + 1) ∧ (t.withVar v).InOrder vs

theorem WellFormed.withVars (h : t.WellFormed) (hvs : t.InOrder vs) :
    (t.withVars vs).WellFormed := by
  induction vs generalizing t with
  | nil => exact h
  | cons v vs ih => exact ih (h.withVar hvs.1) hvs.2

theorem inOrder_append : t.InOrder (vs ++ ws) ↔ t.InOrder vs ∧ (t.withVars vs).InOrder ws := by
  induction vs generalizing t with
  | nil => simp [InOrder, withVars]
  | cons v vs ih =>
    rw [List.cons_append, InOrder, InOrder, ih, and_assoc]
    exact Iff.rfl

theorem inOrder_of_inScope (h : ∀ v ∈ vs, v.InScope t.program.columns.size) : t.InOrder vs := by
  induction vs generalizing t with
  | nil => trivial
  | cons v vs ih =>
    refine ⟨(h v List.mem_cons_self).mono (Nat.le_succ _), ih fun w hw => ?_⟩
    exact (h w (List.mem_cons_of_mem _ hw)).mono (t.grows_withVar v).program.size_le

/-- The variables of a cycle are numbered for the columns that they get. -/
theorem inOrder_orderVars {firstColumn size first count : Nat} (h : t.WellFormed)
    (hsize : t.program.columns.size = firstColumn + first) :
    t.InOrder ((List.range' first count).map (orderVar firstColumn size)) := by
  induction count generalizing t first with
  | zero => trivial
  | succ count ih =>
    have hnext : (orderVar firstColumn size first).InScope (t.program.columns.size + 1) := by
      intro column hc
      cases hc
      omega
    have hnew : ¬ t.layout.Has (orderVar firstColumn size first) := fun hhas => by
      have := h.inScope _ hhas _ rfl
      omega
    refine ⟨hnext, ih (h.withVar hnext) ?_⟩
    rw [withVar_of_not_has hnew]
    show (t.program.withColumn _).columns.size = _
    rw [Ilp.size_withColumn]
    omega

theorem exists_value (h : t.WellFormed) (hx : t.program.Solves x)
    (hρ : ∀ w, t.layout.Has w → t.layout.valuation x w.toVarKey = ρ w.toVarKey)
    (hv : ¬ t.layout.Has v → v.domain.Admits (ρ v.toVarKey)) :
    ∃ y, AgreeBelow t.program.columns.size x y ∧ (t.withVar v).program.Solves y ∧
      ∀ w, (t.withVar v).layout.Has w →
        (t.withVar v).layout.valuation y w.toVarKey = ρ w.toVarKey := by
  by_cases hhas : t.layout.Has v
  · rw [withVar_of_has hhas]
    exact ⟨x, .refl _ x, hx, hρ⟩
  · let y : Assignment := Function.update x t.program.columns.size (ρ v.toVarKey)
    have hxy : AgreeBelow t.program.columns.size x y := .update (Nat.le_refl _) x _
    have hy : y t.program.columns.size = ρ v.toVarKey := Function.update_self ..
    refine ⟨y, hxy, ?_, fun w hw => ?_⟩
    · rw [withVar_of_not_has hhas]
      refine Ilp.solves_withColumn.2 ⟨h.program.solves_congr hxy hx, ?_⟩
      rw [hy]
      exact hv hhas
    · by_cases hold : t.layout.Has w
      · rw [(t.grows_withVar v).layout.valuation hold, ← h.valuation_congr hxy]
        exact hρ w hold
      · have heq : v.toVarKey = w.toVarKey := (has_withVar.1 hw).resolve_right hold
        rw [withVar_of_not_has hhas, ← heq]
        have hget : (t.layout.insert v (v.imageAt t.program.columns.size)).get? v =
            some (v.imageAt t.program.columns.size) := by
          rw [Layout.get?_insert, if_pos rfl]
        rw [Layout.valuation_of_get? hget, Var.column_imageAt, hy]

/-- New variables may take any values of their domains. -/
theorem exists_values (h : t.WellFormed) (hvs : t.InOrder vs) (hx : t.program.Solves x)
    (hρ : ∀ w, t.layout.Has w → t.layout.valuation x w.toVarKey = ρ w.toVarKey)
    (hdomain : ∀ v ∈ vs, ¬ t.layout.Has v → v.domain.Admits (ρ v.toVarKey)) :
    ∃ y, AgreeBelow t.program.columns.size x y ∧ (t.withVars vs).program.Solves y ∧
      ∀ w, (t.withVars vs).layout.Has w →
        (t.withVars vs).layout.valuation y w.toVarKey = ρ w.toVarKey := by
  induction vs generalizing t x with
  | nil => exact ⟨x, .refl _ x, hx, hρ⟩
  | cons v vs ih =>
    obtain ⟨y, hxy, hy, hρy⟩ := exists_value h hx hρ (hdomain v List.mem_cons_self)
    have hgrows := t.grows_withVar v
    obtain ⟨z, hyz, hz, hρz⟩ := ih (h.withVar hvs.1) hvs.2 hy hρy fun w hw hnot =>
      hdomain w (List.mem_cons_of_mem _ hw) fun hold => hnot (hgrows.layout.has hold)
    exact ⟨z, hxy.trans (hyz.mono hgrows.program.size_le), hz, hρz⟩

/-- In a solution the new variables have values of their domains, and the others keep theirs. -/
theorem valuation_mem_extensions (h : (t.withVars vs).WellFormed)
    (hx : (t.withVars vs).program.Solves x) :
    (t.withVars vs).layout.valuation x ∈ (t.layout.valuation x).extensions vs := by
  refine mem_extensions.2 ⟨fun k hk => ?_, fun v hv => ?_⟩
  · let w : Var := ⟨k, ""⟩
    by_cases hw : t.layout.Has w
    · exact (t.grows_withVars vs).layout.valuation hw
    · rw [Layout.valuation_of_not_has (v := w) hw, Layout.valuation_of_not_has (v := w)]
      exact fun hnew => hw ((has_withVars.1 hnew).resolve_left hk)
  · exact h.admits hx (has_withVars.2 (.inl (List.mem_map_of_mem hv)))

end Draft

end Linearization
