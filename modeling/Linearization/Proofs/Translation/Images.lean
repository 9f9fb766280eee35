import Linearization.Proofs.Solve.Slots
import Linearization.Proofs.Translation.Parallel
import Mathlib.Data.List.Pairwise

/-!
# The columns of variables

A variable is registered when it is asked for, when a model is translated or when a decomposition
brings it along, between columns that lowerings make for themselves. Whatever has been asked of a
translation, and whether it failed or not: variables keep their images, variables of different
identities have different columns, and the column of a variable has its domain and its name, also if
a decomposition has introduced it (`Translate.images_kept`). In the translation of a model its
variables have the first columns, in the order in which they are found.

The invariant is about the entries of the layout (`Draft.Faithful`). That a step keeps it is shown
for elementary steps; which variables the entries are for is a contract (`Contract.registers`).
-/

namespace Linearization

open Linearization.Valuation (keysOf)

/-! ## Columns stay -/

/-- The columns of the first program are the first columns of the second one. -/
def Ilp.KeepsColumns (p q : Ilp) : Prop := p.columns.toList <+: q.columns.toList

namespace Ilp.KeepsColumns

variable {p q : Ilp}

instance : Std.Refl KeepsColumns := ⟨fun p => List.prefix_refl p.columns.toList⟩

instance : Trans KeepsColumns KeepsColumns KeepsColumns := ⟨List.IsPrefix.trans⟩

theorem of_eq (h : q.columns = p.columns) : p.KeepsColumns q := by
  unfold KeepsColumns
  rw [h]

theorem column (h : p.KeepsColumns q) {i : Nat} {c : Column} (hc : p.columns[i]? = some c) :
    q.columns[i]? = some c := by
  obtain ⟨rest, hrest⟩ := h
  rw [← Array.getElem?_toList] at hc ⊢
  rw [← hrest]
  exact List.getElem?_append_left (List.getElem?_eq_some_iff.1 hc).1 ▸ hc

end Ilp.KeepsColumns

namespace Lowering

open Ilp

variable {α : Type} {m : Lowering α}

theorem keepsColumns_withColumn (p : Ilp) (c : Column) : p.KeepsColumns (p.withColumn c) :=
  (p.grows_withColumn c).columns

theorem keepsColumns_trueLiteral : Keeps KeepsColumns Lowering.trueLiteral := by
  intro p
  unfold KeepsAt
  cases h : p.trueColumn with
  | some i =>
    rw [stateAfter_of_ok (trueLiteral_of_some h)]
    exact .of_eq rfl
  | none =>
    rw [stateAfter_of_ok (trueLiteral_of_none h)]
    exact (grows_withTrue h).columns

theorem Composed.keepsColumns (h : Composed m) : Keeps KeepsColumns m := by
  have hread : ∀ {β : Type} (g : Ilp → Except LoweringError β),
      Keeps KeepsColumns (do ofExcept (g (← get)) : Lowering β) := fun g =>
    Keeps.get.bind fun p => by
      cases g p with
      | ok a => exact .pure a
      | error error => exact .throw error
  induction h with
  | pure a => exact .pure a
  | throw error => exact .throw error
  | @bind α β m f _ _ ihm ihf =>
    exact fun p => (ihm p).bind fun a q hrun => ihf a ⟨p, q, hrun⟩ q
  | @read α g _ => exact hread g
  | auxiliaryBool purpose => exact fun p => keepsColumns_withColumn p _
  | auxiliaryInt purpose _ => exact fun p => keepsColumns_withColumn p _
  | trueLiteral => exact keepsColumns_trueLiteral
  | addRow _ => exact fun p => .of_eq rfl
  | keep e encoding => exact fun p => .of_eq rfl
  | encode e _ ih =>
    refine (hread fun p => p.bounds e).bind fun b => ?_
    dsimp only
    split
    · exact keepsColumns_trueLiteral.bind fun _ => .pure _
    · refine Keeps.get.bind fun p => ?_
      split
      · exact .pure _
      split
      · exact .throw _
      split
      · exact .throw _
      · exact ih b.1 b.2
  | setObjective direction e => exact fun p => .of_eq rfl

end Lowering

/-! ## Entries of the layout -/

namespace Draft

/-- Every registered variable stands for a column that is its own, with its bounds and name. -/
structure Faithful (t : Draft) : Prop where
  own : ∀ entry ∈ t.layout.entries, entry.2 = entry.1.imageAt entry.2.column ∧
    t.program.columns[entry.2.column]? = some entry.1.toColumn
  distinct : t.layout.entries.Pairwise fun a b =>
    a.1.toVarKey ≠ b.1.toVarKey ∧ a.2.column ≠ b.2.column

/-- Images and columns stay as they are, and so does that the images are faithful. -/
structure KeepsImages (t t' : Draft) : Prop where
  layout : t.layout.Grows t'.layout
  columns : t.program.KeepsColumns t'.program
  faithful : t.Faithful → t'.Faithful

variable {t t' : Draft} {v w : Var} {vs : List Var} {image image' : Image}

theorem exists_entry (h : t.layout.get? v = some image) :
    ∃ w, (w, image) ∈ t.layout.entries ∧ w.toVarKey = v.toVarKey := by
  obtain ⟨⟨w, i⟩, hfind, rfl⟩ := Option.map_eq_some_iff.1 h
  exact ⟨w, List.mem_of_find?_eq_some hfind, by simpa using List.find?_some hfind⟩

theorem has_of_mem_entries {entry : Var × Image} (h : entry ∈ t.layout.entries) :
    t.layout.Has entry.1 := by
  unfold Layout.Has Layout.get?
  rw [Option.isSome_map, List.find?_isSome]
  exact ⟨entry, h, by simp⟩

theorem mem_entries_withVars {entry : Var × Image}
    (h : entry ∈ (t.withVars vs).layout.entries) : entry ∈ t.layout.entries ∨ entry.1 ∈ vs := by
  induction vs generalizing t with
  | nil => exact .inl h
  | cons v vs ih =>
    rcases ih (t := t.withVar v) h with h | h
    · by_cases hhas : t.layout.Has v
      · rw [withVar_of_has hhas] at h
        exact .inl h
      · rw [withVar_of_not_has hhas] at h
        rcases List.mem_cons.1 h with rfl | h
        · exact .inr List.mem_cons_self
        · exact .inl h
    · exact .inr (List.mem_cons_of_mem _ h)

namespace Faithful

theorem start (limit : Nat) : (Draft.start limit).Faithful :=
  ⟨List.forall_mem_nil _, List.Pairwise.nil⟩

theorem of_program (h : t.Faithful) (hl : t'.layout = t.layout)
    (hp : t.program.KeepsColumns t'.program) : t'.Faithful where
  own entry hentry := by
    rw [hl] at hentry
    exact ⟨(h.own entry hentry).1, hp.column (h.own entry hentry).2⟩
  distinct := by
    rw [hl]
    exact h.distinct

/-- The new column is none of those that variables stand for already. -/
theorem withVar (h : t.Faithful) (v : Var) : (t.withVar v).Faithful := by
  by_cases hhas : t.layout.Has v
  · rwa [withVar_of_has hhas]
  rw [withVar_of_not_has hhas]
  have hold : Faithful { t with program := t.program.withColumn v.toColumn } :=
    h.of_program rfl (Lowering.keepsColumns_withColumn _ _)
  constructor
  · intro entry hentry
    rcases List.mem_cons.1 hentry with rfl | hentry
    · rw [Var.column_imageAt]
      exact ⟨rfl, t.program.getElem?_withColumn_size _⟩
    · exact hold.own entry hentry
  · refine List.pairwise_cons.2 ⟨fun entry hentry => ⟨fun hkey => ?_, fun hcolumn => ?_⟩,
      h.distinct⟩
    · exact hhas ((Layout.has_congr hkey).2 (has_of_mem_entries hentry))
    · have hlt := (Array.getElem?_eq_some_iff.1 (h.own entry hentry).2).1
      rw [← hcolumn, Var.column_imageAt] at hlt
      exact Nat.lt_irrefl _ hlt

theorem withVars (h : t.Faithful) (vs : List Var) : (t.withVars vs).Faithful := by
  induction vs generalizing t with
  | nil => exact h
  | cons v vs ih => exact ih (h.withVar v)

theorem image_eq (h : t.Faithful) (hv : t.layout.get? v = some image) :
    image = v.imageAt image.column := by
  obtain ⟨⟨key, name⟩, hw, rfl⟩ := exists_entry hv
  exact (h.own _ hw).1

/-- Entries with a common identity or a common column are the same. -/
theorem entry_eq {a b : Var × Image} (h : t.Faithful) (ha : a ∈ t.layout.entries)
    (hb : b ∈ t.layout.entries)
    (hcommon : a.1.toVarKey = b.1.toVarKey ∨ a.2.column = b.2.column) : a = b := by
  let Apart (a b : Var × Image) : Prop :=
    a.1.toVarKey ≠ b.1.toVarKey ∧ a.2.column ≠ b.2.column
  have : Std.Symm Apart := ⟨fun _ _ hapart => ⟨hapart.1.symm, hapart.2.symm⟩⟩
  by_contra hne
  obtain ⟨hkey, hcolumn⟩ := List.Pairwise.forall (R := Apart) h.distinct ha hb hne
  exact hcommon.elim hkey hcolumn

theorem get?_of_mem_entries (h : t.Faithful) (hv : (v, image) ∈ t.layout.entries) :
    t.layout.get? v = some image := by
  obtain ⟨image', hget⟩ := Option.isSome_iff_exists.1 (has_of_mem_entries hv)
  obtain ⟨w, hw, hkey⟩ := exists_entry hget
  cases h.entry_eq hw hv (.inl hkey)
  exact hget

/-- Variables with a common column have one identity. -/
theorem key_eq (h : t.Faithful) (hv : t.layout.get? v = some image)
    (hw : t.layout.get? w = some image') (hcolumn : image.column = image'.column) :
    v.toVarKey = w.toVarKey := by
  obtain ⟨v', hv', hkey⟩ := exists_entry hv
  obtain ⟨w', hw', hkey'⟩ := exists_entry hw
  cases h.entry_eq hv' hw' (.inr hcolumn)
  exact hkey.symm.trans hkey'

end Faithful

open Lowering Translate

theorem stateAfter_build {α : Type} (e : Expr) (action : Lowering α) (t : Draft) :
    stateAfter (build e action) t = { t with program := stateAfter action t.program } := by
  unfold stateAfter build
  cases action t.program <;> rfl

/-- Elementary steps keep images, columns and that the images are faithful. -/
theorem keepsImages_elementary : Elementary KeepsImages where
  refl t := ⟨.refl _, .of_eq rfl, id⟩
  trans h h' := ⟨h.layout.trans h'.layout, List.IsPrefix.trans h.columns h'.columns,
    h'.faithful ∘ h.faithful⟩
  build e action haction t := by
    have hcolumns : t.program.KeepsColumns (stateAfter action t.program) :=
      haction.keepsColumns t.program
    unfold KeepsAt
    rw [stateAfter_build]
    exact ⟨.refl _, hcolumns, fun h => h.of_program rfl hcolumns⟩
  withVars t vs :=
    ⟨(t.grows_withVars vs).layout, (t.grows_withVars vs).program.columns, fun h => h.withVars vs⟩
  logged t g := ⟨.refl _, .of_eq rfl, fun h => h.of_program rfl (.of_eq rfl)⟩
  atDepth t depth deepest := ⟨.refl _, .of_eq rfl, fun h => h.of_program rfl (.of_eq rfl)⟩

end Draft

/-! ## What a variable asks for -/

namespace Var

/-- A positive literal for a truth value, else the column itself. -/
def wantedImage (v : Var) (column : Nat) : Image :=
  match v.domain with
  | .bool => .bool ⟨column, true⟩
  | .int _ _ => .int column

/-- From 0 to 1 for a truth value, else with the bounds of the domain. -/
def wantedColumn (v : Var) (name : String) : Column :=
  match v.domain with
  | .bool => ⟨name, 0, 1, true⟩
  | .int lower upper => ⟨name, lower, upper, false⟩

theorem imageAt_eq_wantedImage (v : Var) (column : Nat) :
    v.imageAt column = v.wantedImage column := by
  obtain ⟨⟨serial, _ | ⟨lower, upper⟩⟩, name⟩ := v <;> rfl

theorem toColumn_eq_wantedColumn (v : Var) : v.toColumn = v.wantedColumn v.name := by
  obtain ⟨⟨serial, _ | ⟨lower, upper⟩⟩, name⟩ := v <;> rfl

end Var

/-! ## Which variables are registered -/

/-- If the variable is declared, it has the name that its identity is given. -/
def Var.NamedBy (naming : VarKey → String) (v : Var) : Prop :=
  v.IsDeclared → v.name = naming v.toVarKey

theorem Var.namedBy_orderVar (naming : VarKey → String) (firstColumn size step : Nat) :
    (orderVar firstColumn size step).NamedBy naming := by
  rintro ⟨number, h⟩
  cases h

/-- Every variable that is registered has the property, if the nodes on a cycle have it. -/
def Contract.registers (P : Var → Prop)
    (hnode : ∀ first size step, step < size → P (orderVar first size step)) : Contract where
  Keeps t := ∀ entry ∈ t.layout.entries, P entry.1
  Admits _ e := e.AllVars P
  guarded := False
  keeps_of h _ hlayout _ := by rwa [hlayout]
  admits_mono h _ := h
  admits_child h hd := h.child hd
  admits_all h := Expr.allVars_all h
  decompose {t g d} _ hkeeps hg hd := by
    have hnew : ∀ v ∈ d.newVars, P v := by
      intro v hv
      rcases mem_newVars_of_decompose hd hv with hv | ⟨size, step, hstep, rfl⟩
      · cases hg with
        | global _ _ hnew => exact hnew v hv
      · exact hnode _ size step hstep
    have hmembers := hg.decompose hd (fun _ => id) hnew
    refine ⟨fun entry hentry => ?_, hmembers⟩
    rcases Draft.mem_entries_withVars hentry with hold | hmem
    · exact hkeeps entry hold
    rcases List.mem_append.1 hmem with hmem | hmem
    · exact hnew _ hmem
    · obtain ⟨c, hc, hv⟩ := mem_occurrencesInAll.1 (Translate.mem_varsOf hmem)
      exact (hmembers c hc).of_mem_occurrences hv

namespace Translate

/-! ## Requests -/

/-- What can be asked of a translation under way. -/
inductive Request where
  | register (v : Var)
  | lower (e : Expr)
  | impose (e : Expr) (guards : List Literal)

namespace Request

/-- Do what was asked; the answer does not matter here. -/
def run (config : Config) : Request → Translate Unit
  | register v => discard (Translate.register v)
  | lower e => discard (lowerExpr config e)
  | impose e guards => imposeExpr config e guards

/-- Every variable in the request has the property. -/
def AllVars (P : Var → Prop) : Request → Prop
  | register v => P v
  | lower e => e.AllVars P
  | impose e _ => e.AllVars P

end Request

end Translate

namespace Draft

open Translate

/-- The draft after a sequence of requests, each of which may have failed. -/
def afterRequests (config : Config) (t : Draft) (requests : List Request) : Draft :=
  requests.foldl (fun t r => stateAfter (r.run config) t) t

variable {config : Config} {naming : VarKey → String} {P : Var → Prop}
  {hnode : ∀ first size step, step < size → P (orderVar first size step)} {t t' : Draft}
  {r : Request} {rs : List Request} {v : Var} {vs : List Var}

theorem stateAfter_run_register (config : Config) (v : Var) (t : Draft) :
    stateAfter ((Request.register v).run config) t = t.withVar v := by
  obtain ⟨image, hrun⟩ := register_run v t
  exact (stateAfter_map _ _ t).trans (stateAfter_of_ok hrun)

theorem stateAfter_run_lower (config : Config) (e : Expr) (t : Draft) :
    stateAfter ((Request.lower e).run config) t = stateAfter (lowerExpr config e) t :=
  stateAfter_map _ _ t

theorem afterRequests_append (t : Draft) (rs rs' : List Request) :
    t.afterRequests config (rs ++ rs') = (t.afterRequests config rs).afterRequests config rs' :=
  List.foldl_append

theorem keepsImages_run (r : Request) : Keeps KeepsImages (r.run config) := by
  cases r with
  | register v =>
    intro t
    unfold KeepsAt
    rw [stateAfter_run_register]
    exact keepsImages_elementary.withVars t [v]
  | lower e => exact (keepsImages_elementary.lowerExpr config e).map _
  | impose e guards => exact keepsImages_elementary.imposeExpr config e guards

theorem keepsImages_afterRequests (t : Draft) (rs : List Request) :
    t.KeepsImages (t.afterRequests config rs) := by
  induction rs generalizing t with
  | nil => exact keepsImages_elementary.refl t
  | cons r rs ih => exact keepsImages_elementary.trans (keepsImages_run r t) (ih _)

theorem registers_run (h : (Contract.registers P hnode).Holds t) (hr : r.AllVars P) :
    (Contract.registers P hnode).Holds (stateAfter (r.run config) t) := by
  cases r with
  | register v =>
    rw [stateAfter_run_register]
    refine ⟨h.sound.withVar v, fun entry hentry => ?_⟩
    have hentry : entry ∈ (t.withVars [v]).layout.entries := hentry
    rcases mem_entries_withVars hentry with hold | hnew
    · exact h.keeps entry hold
    · rw [List.mem_singleton.1 hnew]
      exact hr
  | lower e =>
    rw [stateAfter_run_lower]
    exact (meets_lowerExpr config h hr).holds
  | impose e guards => exact (meets_imposeExpr config h hr nofun).holds

theorem registers_afterRequests (h : (Contract.registers P hnode).Holds t)
    (hrs : ∀ r ∈ rs, r.AllVars P) :
    (Contract.registers P hnode).Holds (t.afterRequests config rs) := by
  induction rs generalizing t with
  | nil => exact h
  | cons r rs ih =>
    rw [List.forall_mem_cons] at hrs
    exact ih (registers_run h hrs.1) hrs.2

/-- A variable that was asked for is registered. -/
theorem has_of_mem_requests (h : .register v ∈ rs) : (t.afterRequests config rs).layout.Has v := by
  obtain ⟨before, after, rfl⟩ := List.append_of_mem h
  rw [afterRequests_append]
  refine (keepsImages_afterRequests _ after).layout.has ?_
  show (stateAfter ((Request.register v).run config) (t.afterRequests config before)).layout.Has v
  rw [stateAfter_run_register]
  exact has_withVar.2 (.inl rfl)

/-- A property of the variables in the requests and of the nodes on cycles is a property of every
registered variable: no other variables are registered. -/
def RegistersFrom (rs : List Request) (t : Draft) : Prop :=
  ∀ P : Var → Prop, (∀ r ∈ rs, r.AllVars P) →
    (∀ first size step, step < size → P (orderVar first size step)) →
      ∀ v image, (v, image) ∈ t.layout.entries → P v

/-- Every registered variable stands for a column of its own, which has its bounds and its name. What
is found for an identity belongs to the registered variable of that identity, and if this one was
declared, it has the name that the identity is given. -/
structure Places (naming : VarKey → String) (t : Draft) : Prop where
  entry : ∀ v image, (v, image) ∈ t.layout.entries → t.layout.get? v = some image ∧
    image = v.wantedImage image.column ∧
    t.program.columns[image.column]? = some (v.wantedColumn v.name)
  own : ∀ v image, t.layout.get? v = some image → image = v.wantedImage image.column ∧
    ∃ name, ({ v with name }, image) ∈ t.layout.entries ∧
      t.program.columns[image.column]? = some (v.wantedColumn name) ∧
      (v.IsDeclared → name = naming v.toVarKey)
  distinct : ∀ v w image image', t.layout.get? v = some image → t.layout.get? w = some image' →
    image.column = image'.column → v.toVarKey = w.toVarKey

/-- Every variable that is registered in the first draft has the same image in the second one, on
the same column. -/
structure Retains (t t' : Draft) : Prop where
  image : ∀ v image, t.layout.get? v = some image → t'.layout.get? v = some image
  column : ∀ v image, t.layout.get? v = some image →
    t'.program.columns[image.column]? = t.program.columns[image.column]?

theorem KeepsImages.retains (h : t.KeepsImages t') (hfaithful : t.Faithful) : t.Retains t' where
  image := h.layout
  column v image hv := by
    obtain ⟨w, hw, -⟩ := exists_entry hv
    have hcolumn := (hfaithful.own _ hw).2
    rw [h.columns.column hcolumn, hcolumn]

theorem places_of_faithful (h : t.Faithful)
    (hnamed : ∀ entry ∈ t.layout.entries, entry.1.NamedBy naming) : t.Places naming := by
  have hentry : ∀ v image, (v, image) ∈ t.layout.entries → image = v.wantedImage image.column ∧
      t.program.columns[image.column]? = some (v.wantedColumn v.name) := fun v image hv => by
    rw [← Var.imageAt_eq_wantedImage, ← Var.toColumn_eq_wantedColumn]
    exact h.own _ hv
  refine ⟨fun v image hv => ⟨h.get?_of_mem_entries hv, hentry v image hv⟩, fun v image hv => ?_,
    fun v w image image' hv hw => h.key_eq hv hw⟩
  obtain ⟨⟨key, name⟩, hw, rfl⟩ := exists_entry hv
  obtain ⟨himage, hcolumn⟩ := hentry _ _ hw
  exact ⟨himage, name, hw, hcolumn, hnamed _ hw⟩

end Draft

namespace Model

variable {config : Config} {m : Model} {tr : Translation}

/-- The variables of the model, none of them twice, have the first columns in their order, and each
of them is counted once. -/
structure HasFirstColumns (m : Model) (tr : Translation) : Prop where
  nodup : (keysOf m.vars).Nodup
  image : ∀ (i : Nat) (v : Var), m.vars[i]? = some v → tr.layout.get? v = some (v.wantedImage i)
  column : ∀ (i : Nat) (v : Var), m.vars[i]? = some v →
    tr.program.columns[i]? = some (v.wantedColumn v.name)
  userVariables : tr.userVariables = m.vars.length
  counted : tr.program.columns.size ≤ Translation.countLimit →
    tr.statistics.userVariables = m.vars.length ∧
      tr.statistics.userVariables + tr.statistics.auxiliaryColumns = tr.program.columns.size

theorem hasFirstColumns (h : m.translate config = .ok tr) : m.HasFirstColumns tr := by
  have himage : ∀ (i : Nat) (v : Var), m.vars[i]? = some v →
      tr.layout.get? v = some (v.wantedImage i) := fun i v hi => by
    rw [← Var.imageAt_eq_wantedImage]
    exact (get?_of_translate h hi).1
  obtain ⟨t, hrun, rfl⟩ := translate_eq_ok.1 h
  have hkept := Draft.keepsImages_elementary.of_model hrun
  have hnodup : (keysOf m.vars).Nodup := nodup_keysOf_firstOfEach _
  have hcolumn : ∀ (i : Nat) (v : Var), m.vars[i]? = some v →
      t.program.columns[i]? = some (v.wantedColumn v.name) := by
    intro i v hi
    refine hkept.columns.column ?_
    rw [← Var.toColumn_eq_wantedColumn]
    have hfirst := (Draft.places_withVars (t := .start config.maxDomainEnumeration) hnodup
      (fun w _ => Bool.false_ne_true) hi).2
    rwa [show (Draft.start config.maxDomainEnumeration).program.columns.size = 0 from rfl,
      Nat.zero_add] at hfirst
  have hle : m.vars.length ≤ t.program.columns.size := by
    by_contra hlt
    have hi : m.vars[t.program.columns.size]? = some m.vars[t.program.columns.size] :=
      List.getElem?_eq_getElem (by omega)
    exact absurd (Array.getElem?_eq_some_iff.1 (hcolumn _ _ hi)).1 (Nat.lt_irrefl _)
  refine ⟨hnodup, himage, hcolumn, rfl, fun hlimit => ?_⟩
  dsimp only at hlimit
  simp only [Translation.statistics]
  omega

end Model

namespace Translate

/-- Whatever has been asked of a translation, and whether it failed or not: the variables that were
asked for are registered, and no others than those in the requests and those that stand for the
nodes on a cycle; whatever is asked next, every registered variable keeps its image and the column
with its bounds and name; and no two variables share a column, not even those with a common name. In
the translation of a model its variables have the first columns and are counted once.

The names are given by the identities of variables, so several variables may have one name. -/
theorem images_kept (config : Config) (naming : VarKey → String) (rs rs' : List Request)
    (hnamed : ∀ r ∈ rs ++ rs', r.AllVars (Var.NamedBy naming)) :
    let t := (Draft.start config.maxDomainEnumeration).afterRequests config rs
    let t' := t.afterRequests config rs'
    (∀ v, .register v ∈ rs → t.layout.Has v) ∧ t'.RegistersFrom (rs ++ rs') ∧
      t.Retains t' ∧ t'.Places naming ∧
      ∀ (m : Model) (tr : Translation), m.translate config = .ok tr → m.HasFirstColumns tr := by
  intro t t'
  have hfaithful : ∀ rs,
      ((Draft.start config.maxDomainEnumeration).afterRequests config rs).Faithful := fun rs =>
    (Draft.keepsImages_afterRequests _ rs).faithful (.start _)
  have happend : t' = (Draft.start _).afterRequests config (rs ++ rs') :=
    (Draft.afterRequests_append _ rs rs').symm
  have hfrom : t'.RegistersFrom (rs ++ rs') := by
    intro P hrs hnode v image hv
    have hstart : (Contract.registers P hnode).Holds (.start config.maxDomainEnumeration) :=
      ⟨.start _, List.forall_mem_nil _⟩
    exact (Draft.registers_afterRequests hstart hrs).keeps (v, image) (happend ▸ hv)
  have hplaces : t'.Places naming :=
    Draft.places_of_faithful (happend ▸ hfaithful _) fun entry hentry =>
      hfrom _ hnamed (fun first size step _ => Var.namedBy_orderVar naming first size step)
        entry.1 entry.2 hentry
  exact ⟨fun v hv => Draft.has_of_mem_requests hv, hfrom,
    (Draft.keepsImages_afterRequests t rs').retains (hfaithful rs), hplaces,
    fun m tr h => Model.hasFirstColumns h⟩

/-- Three variables of one name: one that is asked for, one that comes with a decomposition, which
fails after a cycle in it has brought variables of its own, and one that is asked for afterwards. -/
theorem images_kept_of_common_name :
    let x : Var := ⟨⟨.declared 0, .int 0 1⟩, "node"⟩
    let y : Var := ⟨⟨.declared 1, .int 0 1⟩, "node"⟩
    let z : Var := ⟨⟨.declared 2, .bool⟩, "node"⟩
    let tour : Expr := .global (.defined "tour" [.var x]
      [.global (.plain .circuit [.var x, .var y]), .complement x] [y])
    let config : Config := {}
    let t := (Draft.start config.maxDomainEnumeration).afterRequests config
      [.register x, .impose tour []]
    let t' := t.afterRequests config [.register z, .lower (.op .div [.var x, .const 0])]
    t.program.columns.size = 8 ∧ [x, y, z, orderVar 2 2 1].map (fun v => t'.layout.get? v) =
        [some (.int 0), some (.int 1), some (.bool (.ofColumn 8)), some (.int 3)] ∧
      [0, 1, 8, 3].map (fun i => t'.program.columns[i]?) =
        [some ⟨"node", 0, 1, false⟩, some ⟨"node", 0, 1, false⟩, some ⟨"node", 0, 1, true⟩,
          some ⟨"circuit_order[1]", 0, 1, false⟩] ∧
      t'.RegistersFrom [.register x, .impose tour [], .register z,
        .lower (.op .div [.var x, .const 0])] ∧
      t.Retains t' ∧ t'.Places fun _ => "node" := by
  intro x y z tour config t t'
  have hvar : ∀ v ∈ [x, y, z], v.NamedBy fun _ => "node" := by
    simp [Var.NamedBy, x, y, z]
  simp only [List.forall_mem_cons] at hvar
  obtain ⟨hx, hy, hz, -⟩ := hvar
  have hcycle : (Expr.global (.plain .circuit [.var x, .var y])).AllVars
      (Var.NamedBy fun _ => "node") :=
    .global (by simp [Global.args, Expr.AllVars.var, hx, hy]) (List.forall_mem_nil _)
      (List.forall_mem_nil _)
  have htour : tour.AllVars (Var.NamedBy fun _ => "node") :=
    .global (by simp [Global.args, Expr.AllVars.var, hx])
      (by simp [Global.members, hcycle, Expr.AllVars.complement, hx]) (by simpa [Global.newVars])
  have hquotient : (Expr.op .div [.var x, .const 0]).AllVars (Var.NamedBy fun _ => "node") :=
    .op (by simp [Expr.AllVars.var, Expr.AllVars.const, hx])
  obtain ⟨-, hfrom, hkept, hplaces, -⟩ := images_kept config (fun _ => "node")
    [.register x, .impose tour []] [.register z, .lower (.op .div [.var x, .const 0])]
    (by simp [Request.AllVars, hx, hz, htour, hquotient])
  exact ⟨by decide +kernel, by decide +kernel, by decide +kernel, hfrom, hkept, hplaces⟩

end Translate

end Linearization
